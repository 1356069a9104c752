import Stylesheet.Proofs.Expression.Grammar
import Stylesheet.Proofs.Text.Slices

/-!
# Reading expressions

An expression is read in one scan, which counts the brackets that are open and knows whether it
stands inside a string.

- `Expression.next_outside`: all that a character can do to the scan outside strings.
- `Expression.Reads`: what the text behind which the scan stands looks like. `reads_iff` says that
  the scan keeps count of just that, and `after_eq_error_iff` where it stops.
- `Reads.endsInString_iff`: the scan ends inside a string just if the text does.
- `Expression.read_exact`: which texts are read, and what is reported of the others.
-/

namespace Stylesheet.Expression

variable {c mark opener closer : Char} {s t : Text} {unclosed : List Char}

/-! ## Steps of the scan -/

theorem opener?_eq_some_iff : Bracketing.opener? c = some opener ↔ IsPair opener c := by
  unfold Bracketing.opener? IsPair
  by_cases hround : c = ')'
  · simp [hround, eq_comm]
  · by_cases hsquare : c = ']' <;> simp [hround, hsquare, eq_comm]

/-- A closing bracket belongs to one kind of opening bracket. -/
theorem IsPair.opener_unique {other : Char} (h : IsPair opener c) (h' : IsPair other c) :
    opener = other := by
  rw [← opener?_eq_some_iff] at h h'
  exact Option.some.inj (h.symm.trans h')

theorem isOpener_of_isPair (h : IsPair opener closer) : Bracketing.isOpener opener = true := by
  rcases h with ⟨rfl, rfl⟩ | ⟨rfl, rfl⟩ <;> rfl

theorem isPair_of_isOpener (h : Bracketing.isOpener c = true) : ∃ closer, IsPair c closer := by
  simp only [Bracketing.isOpener, Bool.or_eq_true, beq_iff_eq] at h
  rcases h with rfl | rfl
  · exact ⟨')', .inl ⟨rfl, rfl⟩⟩
  · exact ⟨']', .inr ⟨rfl, rfl⟩⟩

theorem isOpener_of_closer (h : IsPair opener c) : Bracketing.isOpener c = false := by
  rcases h with ⟨rfl, rfl⟩ | ⟨rfl, rfl⟩ <;> rfl

theorem isMark_iff : Quoting.isMark c = true ↔ IsMark c := by
  simp [Quoting.isMark, IsMark]

theorem outside_next_of_isMark (h : IsMark mark) : Quoting.outside.next mark = .inside mark := by
  simp [Quoting.next, isMark_iff.mpr h]

theorem outside_next_of_not_isMark (h : ¬IsMark c) : Quoting.outside.next c = .outside := by
  simp [Quoting.next, isMark_iff, h]

/-- The mark that opens a string closes it. -/
theorem inside_next_mark (h : IsMark mark) : (Quoting.inside mark).next mark = .outside := by
  have hescape : mark ≠ '\\' := by rcases h with rfl | rfl <;> decide
  simp [Quoting.next, hescape]

theorem next_opener (h : IsPair c closer) :
    Bracketing.next c ⟨.outside, unclosed⟩ = .ok ⟨.outside, c :: unclosed⟩ :=
  if_pos (isOpener_of_isPair h)

theorem next_closer (h : IsPair opener c) :
    Bracketing.next c ⟨.outside, unclosed⟩ =
      if unclosed.head? = some opener then .ok ⟨.outside, unclosed.tail⟩ else .error c := by
  simp only [Bracketing.next, isOpener_of_closer h, opener?_eq_some_iff.mpr h, Bool.false_eq_true,
    if_false]

/-- What is no bracket does not change which brackets are open. -/
theorem next_other (hopener : ∀ closer, ¬IsPair c closer) (hcloser : ∀ opener, ¬IsPair opener c) :
    Bracketing.next c ⟨.outside, unclosed⟩ = .ok ⟨Quoting.outside.next c, unclosed⟩ := by
  have hopen : Bracketing.isOpener c = false := by
    by_contra h
    obtain ⟨closer, hpair⟩ := isPair_of_isOpener (by simpa using h)
    exact hopener closer hpair
  have hclose : Bracketing.opener? c = none := by
    by_contra h
    obtain ⟨opener, hsome⟩ := Option.ne_none_iff_exists'.mp h
    exact hcloser opener (opener?_eq_some_iff.mp hsome)
  simp only [Bracketing.next, hopen, hclose, Bool.false_eq_true, if_false]

/-- Inside a string no bracket counts. -/
theorem next_quoted {quoting : Quoting} (h : quoting ≠ .outside) :
    Bracketing.next c ⟨quoting, unclosed⟩ = .ok ⟨quoting.next c, unclosed⟩ := by
  cases quoting with
  | outside => exact absurd rfl h
  | inside mark => rfl
  | escaped mark => rfl

/-- A character is refused only outside strings. -/
theorem next_eq_error {state : Bracketing} (h : state.next c = .error closer) :
    c = closer ∧ ∃ unclosed, state = ⟨.outside, unclosed⟩ ∧ (∃ opener, IsPair opener closer) ∧
      ∀ opener ∈ unclosed.head?, ¬IsPair opener closer := by
  obtain ⟨quoting, unclosed⟩ := state
  -- inside a string no character fails
  by_cases hquoting : quoting = .outside
  · subst hquoting
    by_cases hopener : ∃ closer, IsPair c closer
    · obtain ⟨_, hpair⟩ := hopener
      -- an opening bracket and an ordinary character are always taken
      rw [next_opener hpair] at h
      cases h
    by_cases hcloser : ∃ opener, IsPair opener c
    · obtain ⟨opener, hpair⟩ := hcloser
      rw [next_closer hpair] at h
      split at h
      · cases h
      · rename_i hhead
        cases h
        refine ⟨rfl, unclosed, rfl, ⟨opener, hpair⟩, fun other hother hpair' => hhead ?_⟩
        rw [hpair.opener_unique hpair']
        exact hother
    · rw [next_other (not_exists.mp hopener) (not_exists.mp hcloser)] at h
      cases h
  · rw [next_quoted hquoting] at h
    cases h

/-- A quotation mark outside strings opens one. -/
theorem next_mark (h : IsMark mark) (unclosed : List Char) :
    Bracketing.next mark ⟨.outside, unclosed⟩ = .ok ⟨.inside mark, unclosed⟩ := by
  have hopener : ∀ closer, ¬IsPair mark closer := fun _ hpair => (not_isMark_of_isPair hpair).1 h
  have hcloser : ∀ opener, ¬IsPair opener mark := fun _ hpair => (not_isMark_of_isPair hpair).2 h
  rw [next_other hopener hcloser, outside_next_of_isMark h]

/-- All that a character can do outside strings. -/
theorem next_outside {state : Bracketing}
    (h : Bracketing.next c ⟨.outside, unclosed⟩ = .ok state) :
    (∃ closer, IsPair c closer ∧ state = ⟨.outside, c :: unclosed⟩) ∨
    (∃ opener, IsPair opener c ∧ unclosed.head? = some opener ∧
      state = ⟨.outside, unclosed.tail⟩) ∨
    (c ∉ ['(', ')', '[', ']', '"', '\x27'] ∧ state = ⟨.outside, unclosed⟩) ∨
    (IsMark c ∧ state = ⟨.inside c, unclosed⟩) := by
  -- a character opens, or closes, or is a mark, or is none of these
  by_cases hopener : ∃ closer, IsPair c closer
  · obtain ⟨closer, hpair⟩ := hopener
    rw [next_opener hpair] at h
    cases h
    exact .inl ⟨closer, hpair, rfl⟩
  by_cases hcloser : ∃ opener, IsPair opener c
  · obtain ⟨opener, hpair⟩ := hcloser
    rw [next_closer hpair] at h
    split at h
    · rename_i hhead
      cases h
      exact .inr (.inl ⟨opener, hpair, hhead, rfl⟩)
    · cases h
  rw [next_other (not_exists.mp hopener) (not_exists.mp hcloser)] at h
  cases h
  by_cases hmark : IsMark c
  · refine .inr (.inr (.inr ⟨hmark, ?_⟩))
    rw [outside_next_of_isMark hmark]
  · refine .inr (.inr (.inl ⟨?_, ?_⟩))
    · rw [mem_special_iff, not_or, not_or]
      exact ⟨hopener, hcloser, hmark⟩
    · rw [outside_next_of_not_isMark hmark]

/-- Where a reader stands with respect to strings does not depend on brackets. -/
theorem quoting_of_next {state next : Bracketing} (h : state.next c = .ok next) :
    next.quoting = state.quoting.next c := by
  obtain ⟨quoting, unclosed⟩ := state
  by_cases hquoting : quoting = .outside
  · subst hquoting
    rcases next_outside h with ⟨closer, hpair, rfl⟩ | ⟨opener, hpair, -, rfl⟩ | ⟨hc, rfl⟩ |
      ⟨hmark, rfl⟩
    · exact (outside_next_of_not_isMark (not_isMark_of_isPair hpair).1).symm
    · exact (outside_next_of_not_isMark (not_isMark_of_isPair hpair).2).symm
    · have hplain : ¬IsMark c := fun hmark => hc (mem_special_iff.mpr (.inr (.inr hmark)))
      exact (outside_next_of_not_isMark hplain).symm
    · exact (outside_next_of_isMark hmark).symm
  · rw [next_quoted hquoting] at h
    cases h
    rfl

/-! ## Runs of the scan -/

/-- A scan of two texts scans the second one from where the first one leaves off. -/
theorem after_append {start middle : Bracketing} (h : start.after s = .ok middle) (t : Text) :
    start.after (s ++ t) = middle.after t := by
  unfold Bracketing.after at h ⊢
  rw [List.foldlM_append, h]
  rfl

/-- A scan that has failed is not taken up again. -/
theorem after_append_of_error {start : Bracketing} (h : start.after s = .error closer) (t : Text) :
    start.after (s ++ t) = .error closer := by
  unfold Bracketing.after at h ⊢
  rw [List.foldlM_append, h]
  rfl

theorem after_cons {start middle : Bracketing} (h : start.next c = .ok middle) (t : Text) :
    start.after (c :: t) = middle.after t := by
  unfold Bracketing.after
  rw [List.foldlM_cons, h]
  rfl

theorem after_singleton (start : Bracketing) (c : Char) : start.after [c] = start.next c := by
  show (start.next c >>= fun next => pure next) = _
  rw [bind_pure]

/-- The body of a string leaves the reader in it. -/
theorem after_stringBody (h : StringBody mark t) (unclosed : List Char) :
    Bracketing.after ⟨.inside mark, unclosed⟩ t = .ok ⟨.inside mark, unclosed⟩ := by
  -- by induction on how the body is made: a character that is neither the mark nor a backslash, or
  -- any character behind a backslash
  induction h with
  | nil => rfl
  | @char c t hmark hescape _ ih =>
    have hnext : Bracketing.next c ⟨.inside mark, unclosed⟩ = .ok ⟨.inside mark, unclosed⟩ := by
      simp [next_quoted, Quoting.next, hmark, hescape]
    rw [after_cons hnext, ih]
  | hidden c _ ih =>
    have hescape : Bracketing.next '\\' ⟨.inside mark, unclosed⟩ = .ok ⟨.escaped mark, unclosed⟩ := by
      simp [next_quoted, Quoting.next]
    have hhidden : Bracketing.next c ⟨.escaped mark, unclosed⟩ = .ok ⟨.inside mark, unclosed⟩ := by
      simp [next_quoted, Quoting.next]
    rw [after_cons hescape, after_cons hhidden, ih]

/-- A balanced text leaves the brackets open that were open. -/
theorem after_balanced (h : Balanced t) (unclosed : List Char) :
    Bracketing.after ⟨.outside, unclosed⟩ t = .ok ⟨.outside, unclosed⟩ := by
  -- by induction on how a balanced text is made, with the brackets around it as a parameter: they
  -- grow by one inside a pair
  induction h generalizing unclosed with
  | nil => rfl
  | @char c t hc _ ih =>
    simp only [mem_special_iff, not_or, not_exists] at hc
    obtain ⟨hopener, hcloser, hmark⟩ := hc
    have hnext : Bracketing.next c ⟨.outside, unclosed⟩ = .ok ⟨.outside, unclosed⟩ := by
      rw [next_other hopener hcloser, outside_next_of_not_isMark hmark]
    rw [after_cons hnext, ih]
  | @brackets opener closer s t hpair _ _ ihs iht =>
    have hclose : Bracketing.next closer ⟨.outside, opener :: unclosed⟩ =
        .ok ⟨.outside, unclosed⟩ := by
      simp [next_closer hpair]
    rw [after_cons (next_opener hpair), after_append (ihs _), after_cons hclose, iht]
  | @quoted mark s t hmark hbody _ ih =>
    have hstart := next_mark hmark unclosed
    have hend : Bracketing.next mark ⟨.inside mark, unclosed⟩ = .ok ⟨.outside, unclosed⟩ := by
      rw [next_quoted (by simp), inside_next_mark hmark]
    rw [after_cons hstart, after_append (after_stringBody hbody _), after_cons hend, ih]

/-- A text that leaves brackets open is scanned up to these brackets. -/
theorem after_leavesOpen (h : LeavesOpen unclosed t) :
    Bracketing.after {} t = .ok ⟨.outside, unclosed⟩ := by
  induction h with
  | nothing h => exact after_balanced h []
  | bracket _ hpair hback ih =>
    rw [after_append ih, after_cons (next_opener hpair), after_balanced hback]

/-- What the text behind which a reader stands looks like. -/
inductive Reads : Bracketing → Text → Prop where
  | outside {unclosed : List Char} {t : Text} (h : LeavesOpen unclosed t) :
    Reads ⟨.outside, unclosed⟩ t
  | inside {unclosed : List Char} {mark : Char} {s body : Text} (h : LeavesOpen unclosed s)
    (hmark : IsMark mark) (hbody : StringBody mark body) :
    Reads ⟨.inside mark, unclosed⟩ (s ++ mark :: body)
  | escaped {unclosed : List Char} {mark : Char} {s body : Text} (h : LeavesOpen unclosed s)
    (hmark : IsMark mark) (hbody : StringBody mark body) :
    Reads ⟨.escaped mark, unclosed⟩ (s ++ mark :: (body ++ ['\\']))

/-- One step of the scan keeps this. -/
theorem Reads.next {state next : Bracketing} (h : Reads state t) (hnext : state.next c = .ok next) :
    Reads next (t ++ [c]) := by
  -- what can be put behind the text depends on whether it ends outside a string, in one, or behind
  -- a backslash
  cases h with
  | outside h =>
    rcases next_outside hnext with ⟨closer, hpair, rfl⟩ | ⟨opener, hpair, hhead, rfl⟩ | ⟨hc, rfl⟩ |
      ⟨hmark, rfl⟩
    · exact .outside (.bracket h hpair .nil)
    · obtain ⟨rest, rfl⟩ := List.head?_eq_some_iff.mp hhead
      exact .outside (h.close hpair)
    · exact .outside (h.append (.char hc .nil))
    · exact .inside h hmark .nil
  | @inside unclosed mark s body h hmark hbody =>
    rw [next_quoted (by simp)] at hnext
    cases hnext
    rw [List.append_assoc, List.cons_append]
    -- in a string a backslash hides the next character, and the mark ends the string
    by_cases hescape : c = '\\'
    · subst hescape
      exact .escaped h hmark hbody
    by_cases hend : c = mark
    · subst hend
      rw [inside_next_mark hmark]
      exact .outside (h.append (.quoted hmark hbody .nil))
    · simp only [Quoting.next, hescape, hend, if_false]
      exact .inside h hmark (hbody.append (.char hend hescape .nil))
  | escaped h hmark hbody =>
    rw [next_quoted (by simp)] at hnext
    cases hnext
    rw [List.append_assoc, List.cons_append, List.append_assoc]
    exact .inside h hmark (hbody.append (.hidden c .nil))

/-- The scan keeps count of just what the text leaves open. -/
theorem reads_iff {state : Bracketing} : Bracketing.after {} t = .ok state ↔ Reads state t := by
  constructor
  · intro h
    -- from the end of the text, since the scan says something of what is behind it
    induction t using List.reverseRecOn generalizing state with
    | nil =>
      cases h
      exact .outside (.nothing .nil)
    | append_singleton t c ih =>
      cases hfront : Bracketing.after {} t with
      | error closer =>
        rw [after_append_of_error hfront] at h
        cases h
      | ok middle =>
        rw [after_append hfront, after_singleton] at h
        exact (ih hfront).next h
  · intro h
    cases h with
    | outside h => exact after_leavesOpen h
    | inside h hmark hbody =>
      rw [after_append (after_leavesOpen h), after_cons (next_mark hmark _), after_stringBody hbody]
    | escaped h hmark hbody =>
      rw [after_append (after_leavesOpen h), after_cons (next_mark hmark _),
        after_append (after_stringBody hbody _), after_singleton]
      simp [next_quoted, Quoting.next]

/-- The scan stops at the first closing bracket that does not belong to the innermost open one. -/
theorem after_eq_error_iff : Bracketing.after {} t = .error closer ↔ Mismatch t closer := by
  constructor
  · intro h
    -- from the last character backwards: either the scan has failed in front of it, or it fails on
    -- it
    induction t using List.reverseRecOn with
    | nil => cases h
    | append_singleton t c ih =>
      cases hfront : Bracketing.after {} t with
      | error other =>
        rw [after_append_of_error hfront] at h
        cases h
        obtain ⟨front, back, unclosed, rfl, hmismatch⟩ := ih hfront
        exact ⟨front, back ++ [c], unclosed, by simp, hmismatch⟩
      | ok middle =>
        rw [after_append hfront, after_singleton] at h
        obtain ⟨hc, unclosed, hmiddle, hcloser, hmismatch⟩ := next_eq_error h
        subst hc hmiddle
        -- a scan fails only outside strings, so the text in front leaves its brackets open
        cases reads_iff.mp hfront with
        | outside hopen => exact ⟨t, [], unclosed, rfl, hopen, hcloser, hmismatch⟩
  · rintro ⟨front, back, unclosed, rfl, hopen, ⟨opener, hpair⟩, hmismatch⟩
    rw [after_append (after_leavesOpen hopen)]
    have hnext : Bracketing.next closer ⟨.outside, unclosed⟩ = .error closer := by
      rw [next_closer hpair, if_neg]
      intro hhead
      exact hmismatch opener hhead hpair
    unfold Bracketing.after
    rw [List.foldlM_cons, hnext]
    rfl

/-! ## Strings that do not end -/

/-- Where a reader stands with respect to strings behind a text. -/
def quotingAfter (quoting : Quoting) (t : Text) : Quoting := t.foldl (fun state c => state.next c) quoting

/-- A scan that succeeds tells strings apart as if there were no brackets. -/
theorem quoting_of_after {start state : Bracketing} (h : start.after t = .ok state) :
    state.quoting = quotingAfter start.quoting t := by
  induction t generalizing start with
  | nil =>
    cases h
    rfl
  | cons c t ih =>
    cases hnext : start.next c with
    | error closer =>
      unfold Bracketing.after at h
      rw [List.foldlM_cons, hnext] at h
      cases h
    | ok next =>
      rw [after_cons hnext] at h
      rw [ih h, quoting_of_next hnext]
      rfl

/-- The body of a string stays in the string. -/
theorem quotingAfter_stringBody (h : StringBody mark t) :
    quotingAfter (.inside mark) t = .inside mark :=
  (quoting_of_after (after_stringBody h [])).symm

/-- Strings are told apart from left to right. -/
theorem quotingAfter_append (quoting : Quoting) (s t : Text) :
    quotingAfter quoting (s ++ t) = quotingAfter (quotingAfter quoting s) t := List.foldl_append

theorem quotingAfter_mark (h : IsMark mark) (t : Text) :
    quotingAfter .outside (mark :: t) = quotingAfter (.inside mark) t := by
  simp [quotingAfter, outside_next_of_isMark h]

/-- A text whose strings all end leaves a reader outside. -/
theorem quotingAfter_stringsEnd (h : StringsEnd t) : quotingAfter .outside t = .outside := by
  induction h with
  | nil => rfl
  | @char c t hc _ ih =>
    show quotingAfter (Quoting.outside.next c) t = _
    rw [outside_next_of_not_isMark hc, ih]
  | @quoted mark s t hmark hbody _ ih =>
    have hend : quotingAfter (.inside mark) (mark :: t) = quotingAfter .outside t := by
      simp [quotingAfter, inside_next_mark hmark]
    rw [quotingAfter_mark hmark, quotingAfter_append, quotingAfter_stringBody hbody, hend, ih]

/-- A text ends inside a string just if the scan does. -/
theorem Reads.endsInString_iff {state : Bracketing} (h : Reads state t) :
    EndsInString t ↔ state.quoting ≠ .outside := by
  constructor
  · rintro ⟨front, mark, body, hfront, hmark, hbody, ht⟩
    rw [quoting_of_after (reads_iff.mpr h)]
    -- the text ends in the body of a string, or behind a backslash in it
    rcases ht with rfl | rfl
    · rw [quotingAfter_append, quotingAfter_stringsEnd hfront, quotingAfter_mark hmark,
        quotingAfter_stringBody hbody]
      simp
    · rw [quotingAfter_append, quotingAfter_stringsEnd hfront, quotingAfter_mark hmark,
        quotingAfter_append, quotingAfter_stringBody hbody]
      simp [quotingAfter, Quoting.next]
  · intro hquoting
    cases h with
    | outside _ => exact absurd rfl hquoting
    | inside h hmark hbody => exact ⟨_, _, _, h.stringsEnd, hmark, hbody, .inl rfl⟩
    | escaped h hmark hbody => exact ⟨_, _, _, h.stringsEnd, hmark, hbody, .inr rfl⟩

/-! ## Expressions -/

/-- To leave nothing open is to be balanced. -/
theorem leavesOpen_nil_iff : LeavesOpen [] t ↔ Balanced t := by
  constructor
  · intro h
    cases h with
    | nothing h => exact h
  · exact .nothing

/-- A text that is scanned to its end has no closing bracket in a wrong place. -/
theorem not_mismatch_of_after {state : Bracketing} (h : Bracketing.after {} t = .ok state)
    (closer : Char) : ¬Mismatch t closer := by
  intro hmismatch
  rw [after_eq_error_iff.mpr hmismatch] at h
  cases h

/-- Of a text that is not empty, either nothing is reported and it is balanced, or a flaw is. -/
theorem defect?_cases (ht : t ≠ []) :
    (defect? t = none ∧ Balanced t) ∨ ∃ defect, defect? t = some defect ∧ Flaw t defect := by
  have hempty : ¬t.isEmpty = true := by simpa using ht
  unfold defect?
  rw [if_neg hempty]
  -- what is reported depends on where the scan stops: at a bracket, in a string, with open
  -- brackets, or with none of these
  cases hafter : Bracketing.after {} t with
  | error closer => exact .inr ⟨_, rfl, .unexpected (after_eq_error_iff.mp hafter)⟩
  | ok state =>
    have hmatch := not_mismatch_of_after hafter
    have hreads := reads_iff.mp hafter
    have hend := hreads.endsInString_iff
    cases hreads with
    | @outside unclosed t hopen =>
      cases unclosed with
      | nil => exact .inl ⟨rfl, leavesOpen_nil_iff.mp hopen⟩
      | cons opener unclosed => exact .inr ⟨_, rfl, .unclosed hmatch (by simp [hend]) hopen⟩
    | inside => exact .inr ⟨_, rfl, .unterminated hmatch (by simp [hend])⟩
    | escaped => exact .inr ⟨_, rfl, .unterminated hmatch (by simp [hend])⟩

/-- No text has two flaws that are reported. -/
theorem Flaw.unique {defect other : Defect} (h : Flaw t defect) (h' : Flaw t other) :
    defect = other := by
  -- each flaw excludes the ones that are reported before it, and the scan has only one outcome
  cases h with
  | unexpected hmismatch =>
    cases h' with
    | unexpected hmismatch' =>
      have heq := (after_eq_error_iff.mpr hmismatch).symm.trans (after_eq_error_iff.mpr hmismatch')
      cases heq
      rfl
    | unterminated hmatch _ => exact absurd hmismatch (hmatch _)
    | unclosed hmatch _ _ => exact absurd hmismatch (hmatch _)
  | unterminated hmatch hend =>
    cases h' with
    | unexpected hmismatch => exact absurd hmismatch (hmatch _)
    | unterminated _ _ => rfl
    | unclosed _ hend' _ => exact absurd hend hend'
  | unclosed hmatch hend hopen =>
    cases h' with
    | unexpected hmismatch => exact absurd hmismatch (hmatch _)
    | unterminated _ hend' => exact absurd hend' hend
    | unclosed _ _ hopen' =>
      have heq := (after_leavesOpen hopen).symm.trans (after_leavesOpen hopen')
      cases heq
      rfl

/-- A balanced text has no flaw. -/
theorem Balanced.not_flaw {defect : Defect} (h : Balanced t) : ¬Flaw t defect := by
  have hafter := after_balanced h []
  intro hflaw
  cases hflaw with
  | unexpected hmismatch => exact not_mismatch_of_after hafter _ hmismatch
  | unterminated _ hend => exact (reads_iff.mp hafter).endsInString_iff.mp hend rfl
  | unclosed _ _ hopen =>
    have heq := (after_leavesOpen hopen).symm.trans hafter
    cases heq

/-- Nothing is reported for a balanced text that is not empty, and for no other text. -/
theorem defect?_eq_none_iff : defect? t = none ↔ t ≠ [] ∧ Balanced t := by
  by_cases ht : t = []
  · subst ht
    simp [defect?]
  · rcases defect?_cases ht with ⟨hnone, hbalanced⟩ | ⟨defect, hsome, hflaw⟩
    · simp [hnone, ht, hbalanced]
    · have hunbalanced : ¬Balanced t := fun hbalanced => hbalanced.not_flaw hflaw
      simp [hsome, hunbalanced]

/-- What is reported for a text that is not empty is its flaw. -/
theorem defect?_eq_some_iff {defect : Defect} (ht : t ≠ []) :
    defect? t = some defect ↔ Flaw t defect := by
  rcases defect?_cases ht with ⟨hnone, hbalanced⟩ | ⟨other, hsome, hflaw⟩
  · simp [hnone, hbalanced.not_flaw]
  · rw [hsome, Option.some.injEq]
    constructor
    · rintro rfl
      exact hflaw
    · exact hflaw.unique

variable {site : Site} {offset : Int}

/-- A text is read just if it is balanced and not empty once its outer blanks are dropped. -/
theorem read_eq_ok_iff {e : Expression} :
    read t site offset = .ok e ↔
      Text.trim t ≠ [] ∧ Balanced (Text.trim t) ∧ e = ⟨Text.trim t, site, offset⟩ := by
  rw [← and_assoc, ← defect?_eq_none_iff]
  unfold read
  dsimp only
  cases defect? (Text.trim t) with
  | none => simp [eq_comm]
  | some defect => simp

/-- Otherwise the message names what is wrong with it. -/
theorem read_eq_error_iff {message : Text} :
    read t site offset = .error message ↔
      ∃ defect, defect? (Text.trim t) = some defect ∧ message = defect.message (Text.trim t) := by
  unfold read
  dsimp only
  cases defect? (Text.trim t) with
  | none => simp
  | some defect => simp [eq_comm]

/-- A text is read as an expression just if it is not empty without its outer blanks and then
balanced; the expression keeps the text without these blanks, and is read from it again. Otherwise
the text is empty, or what is reported is the first closing bracket outside strings that does not
belong to the innermost open one; if there is none, that the text ends inside a string; and if it
does not, the innermost bracket that is open at the end. -/
theorem read_exact (t : Text) (site : Site) (offset : Int) :
    (∀ e, read t site offset = .ok e ↔
      Text.trim t ≠ [] ∧ Balanced (Text.trim t) ∧ e = ⟨Text.trim t, site, offset⟩) ∧
    (∀ e, read t site offset = .ok e →
      ∀ site offset, read e.text site offset = .ok ⟨e.text, site, offset⟩) ∧
    (∀ message, read t site offset = .error message ↔
      (Text.trim t = [] ∧ message = Defect.empty.message []) ∨
      (Text.trim t ≠ [] ∧
        ∃ defect, Flaw (Text.trim t) defect ∧ message = defect.message (Text.trim t))) := by
  refine ⟨fun e => read_eq_ok_iff, ?_, ?_⟩
  · intro e h site' offset'
    obtain ⟨hne, hbalanced, rfl⟩ := read_eq_ok_iff.mp h
    rw [read_eq_ok_iff, Text.trim_trim]
    exact ⟨hne, hbalanced, rfl⟩
  · intro message
    rw [read_eq_error_iff]
    by_cases hempty : Text.trim t = []
    · rw [hempty]
      simp [defect?]
    · simp only [defect?_eq_some_iff hempty, hempty, ne_eq, not_false_eq_true, true_and, false_and,
        false_or]

end Stylesheet.Expression
