import Stylesheet.Construct.Arguments
import Stylesheet.Proofs.Expression.Reading
import Stylesheet.Proofs.Text.Pieces

/-!
# The entries of an argument list

An argument list is cut at its commas with no more than a number of open brackets in hand, which may
be negative and does not know one kind of bracket from the other. An expression is checked with all
its open brackets in hand. The two agree: as long as the check goes well, the number is that of the
open brackets.

- `Expression.Undivided`: a text without a comma outside its brackets and strings.
- `Arguments.Place.after_ofBracketing`: the place behind a text, told by the brackets that are open
  there.
- `Arguments.entries_join`: joined texts that are balanced and undivided are cut apart again.
- `Arguments.after_eq_ok_iff`: how the check of a text follows from those of its entries;
  `Arguments.balanced_iff_entries` says that a text is balanced just if each of its entries is.
-/

namespace Stylesheet

open Expression

/-- No comma of the text stands outside its brackets and strings, which is to say behind a beginning
of it that is balanced. -/
def Expression.Undivided (t : Text) : Prop :=
  ∀ front back, t = front ++ ',' :: back → ¬Balanced front

namespace Expression

variable {c : Char} {s t : Text} {start state : Bracketing}

theorem after_cons_eq_ok :
    start.after (c :: t) = .ok state ↔ ∃ middle, start.next c = .ok middle ∧ middle.after t = .ok state := by
  constructor
  · intro h
    cases hnext : start.next c with
    | error closer =>
      unfold Bracketing.after at h
      rw [List.foldlM_cons, hnext] at h
      cases h
    | ok middle => exact ⟨middle, rfl, (after_cons hnext t).symm.trans h⟩
  · rintro ⟨middle, hnext, h⟩
    rw [after_cons hnext, h]

/-- Two texts behind each other are read one after the other. -/
theorem after_append_eq_ok :
    start.after (s ++ t) = .ok state ↔ ∃ middle, start.after s = .ok middle ∧ middle.after t = .ok state := by
  constructor
  · intro h
    cases hfront : start.after s with
    | error closer =>
      rw [after_append_of_error hfront] at h
      cases h
    | ok middle => exact ⟨middle, rfl, (after_append hfront t).symm.trans h⟩
  · rintro ⟨middle, hfront, h⟩
    rw [after_append hfront, h]

/-- The check of a text ends as it starts just if the text is balanced. -/
theorem after_eq_ok_iff_balanced : Bracketing.after {} t = .ok {} ↔ Balanced t := by
  rw [reads_iff, ← leavesOpen_nil_iff]
  constructor
  · intro h
    cases h with
    | outside h => exact h
  · exact .outside

/-- A comma changes nothing outside strings. -/
theorem next_comma (unclosed : List Char) :
    Bracketing.next ',' ⟨.outside, unclosed⟩ = .ok ⟨.outside, unclosed⟩ := rfl

/-- A blank is none of the characters that do not stand for themselves. -/
theorem not_special_of_isBlank (h : Text.isBlank c = true) :
    c ∉ [',', '(', ')', '[', ']', '"', '\x27'] := by
  intro hc
  simp only [List.mem_cons, List.not_mem_nil, or_false] at hc
  rcases hc with rfl | rfl | rfl | rfl | rfl | rfl | rfl <;> cases h

theorem balanced_of_blank (h : t.all Text.isBlank = true) : Balanced t := by
  induction t with
  | nil => exact .nil
  | cons c t ih =>
    rw [List.all_cons, Bool.and_eq_true] at h
    exact .char (List.not_mem_of_not_mem_cons (not_special_of_isBlank h.1)) (ih h.2)

end Expression

namespace Arguments

/-! ## Places -/

namespace Place

variable {place : Place} {c : Char} {s t : Text} {start state : Bracketing}

/-- The place behind a text. -/
def after (place : Place) (t : Text) : Place := t.foldl next place

/-- The place at which some brackets are open. -/
def ofBracketing (state : Bracketing) : Place := ⟨state.quoting, state.unclosed.length⟩

/-- A comma separates only where no string and no bracket is open. -/
theorem separates_iff : place.separates = true ↔ place = {} := by
  obtain ⟨quoting, depth⟩ := place
  simp [separates]

theorem separates_ofBracketing : (ofBracketing state).separates = true ↔ state = {} := by
  obtain ⟨quoting, unclosed⟩ := state
  simp [separates_iff, ofBracketing]

/-- One character takes the place where it takes the open brackets. -/
theorem next_ofBracketing (h : start.next c = .ok state) :
    (ofBracketing start).next c = ofBracketing state := by
  have hquoting := quoting_of_next h
  obtain ⟨quoting, unclosed⟩ := start
  by_cases houtside : quoting = .outside
  · subst houtside
    -- outside strings a character opens a bracket, closes one, is of no account or opens a string
    rcases next_outside h with ⟨closer, hpair, rfl⟩ | ⟨opener, hpair, hhead, rfl⟩ | ⟨hc, rfl⟩ |
      ⟨hmark, rfl⟩
    · have hchange : change c = 1 := by rcases hpair with ⟨rfl, -⟩ | ⟨rfl, -⟩ <;> rfl
      simp [next, ofBracketing, hchange, ← hquoting]
    · have hchange : change c = -1 := by rcases hpair with ⟨-, rfl⟩ | ⟨-, rfl⟩ <;> rfl
      obtain ⟨rest, rfl⟩ := List.head?_eq_some_iff.mp hhead
      simp only [next, ofBracketing, hchange, ← hquoting, if_true, List.length_cons, List.tail_cons,
        Place.mk.injEq, true_and]
      omega
    · have hchange : change c = 0 := by
        simp only [List.mem_cons, List.not_mem_nil, or_false, not_or] at hc
        simp [change, hc]
      simp [next, ofBracketing, hchange, ← hquoting]
    · have hchange : change c = 0 := by rcases hmark with rfl | rfl <;> rfl
      simp [next, ofBracketing, hchange, ← hquoting]
  · rw [next_quoted houtside] at h
    cases h
    simp [next, ofBracketing, houtside]

theorem after_ofBracketing (h : start.after t = .ok state) :
    (ofBracketing start).after t = ofBracketing state := by
  induction t generalizing start with
  | nil =>
    cases h
    rfl
  | cons c t ih =>
    obtain ⟨middle, hnext, h⟩ := after_cons_eq_ok.mp h
    show ((ofBracketing start).next c).after t = _
    rw [next_ofBracketing hnext, ih h]

/-- Behind the place no comma of the text separates two entries. -/
def Spans (place : Place) (t : Text) : Prop :=
  ∀ front back, t = front ++ ',' :: back → (place.after front).separates = false

theorem spans_nil (place : Place) : place.Spans [] := by
  intro front back h
  cases front <;> cases h

/-- A text is one entry if neither its first character nor the rest separates. -/
theorem spans_cons :
    place.Spans (c :: t) ↔ ¬(c = ',' ∧ place.separates = true) ∧ (place.next c).Spans t := by
  constructor
  · intro h
    refine ⟨fun ⟨hc, hseparates⟩ => ?_, fun front back ht => h (c :: front) back (by rw [ht]; rfl)⟩
    subst hc
    have hnone : place.separates = false := h [] t rfl
    rw [hseparates] at hnone
    cases hnone
  · rintro ⟨hc, ht⟩ front back hcut
    cases front with
    | nil =>
      cases hcut
      show place.separates = false
      simpa using hc
    | cons d front =>
      cases hcut
      exact ht front back rfl

theorem Spans.append (hs : place.Spans s) (ht : (place.after s).Spans t) : place.Spans (s ++ t) := by
  induction s generalizing place with
  | nil => exact ht
  | cons c s ih =>
    obtain ⟨hc, hs⟩ := spans_cons.mp hs
    exact spans_cons.mpr ⟨hc, ih hs ht⟩

/-- Of a balanced text, no comma separates entries just if none stands outside brackets and
strings. -/
theorem spans_iff_undivided (h : Balanced t) : Spans {} t ↔ Undivided t := by
  have hchecked := after_eq_ok_iff_balanced.mpr h
  constructor
  · rintro hspans front back rfl hfront
    have hseparates := hspans front back rfl
    have hplace := after_ofBracketing (after_eq_ok_iff_balanced.mpr hfront)
    have hplace : after {} front = {} := hplace
    rw [hplace] at hseparates
    cases hseparates
  · rintro hundivided front back rfl
    obtain ⟨state, hfront, -⟩ := after_append_eq_ok.mp hchecked
    have hplace : after {} front = ofBracketing state := after_ofBracketing hfront
    rw [hplace, ← Bool.not_eq_true, separates_ofBracketing]
    rintro rfl
    exact hundivided front back rfl (after_eq_ok_iff_balanced.mp hfront)

end Place

/-! ## Entries of a text -/

variable {place : Place} {c : Char} {s t first inner : Text} {rest : List Text} {state : Bracketing}

theorem entriesFrom_comma (t : Text) : entriesFrom {} (',' :: t) = [] :: entries t := rfl

/-- A character that separates nothing belongs to the first entry. -/
theorem entriesFrom_cons (hc : ¬(c = ',' ∧ place.separates = true))
    (h : entriesFrom (place.next c) t = first :: rest) :
    entriesFrom place (c :: t) = (c :: first) :: rest := by
  rw [entriesFrom, if_neg hc, h]
  rfl

/-- A text that spans no separating comma belongs to the first entry. -/
theorem entriesFrom_append (hs : place.Spans s) (h : entriesFrom (place.after s) t = first :: rest) :
    entriesFrom place (s ++ t) = (s ++ first) :: rest := by
  induction s generalizing place with
  | nil => exact h
  | cons c s ih =>
    obtain ⟨hc, hs⟩ := Place.spans_cons.mp hs
    exact entriesFrom_cons hc (ih hs h)

/-- No comma of an entry separates entries. -/
theorem spans_of_entriesFrom (h : entriesFrom place t = first :: rest) :
    place.Spans first ∧ ∀ entry ∈ rest, Place.Spans {} entry := by
  induction t generalizing place first rest with
  | nil =>
    cases h
    exact ⟨place.spans_nil, fun entry hentry => absurd hentry List.not_mem_nil⟩
  | cons c t ih =>
    by_cases hc : c = ',' ∧ place.separates = true
    · rw [entriesFrom, if_pos hc] at h
      cases h
      obtain ⟨-, hseparates⟩ := hc
      rw [Place.separates_iff] at hseparates
      subst hseparates
      refine ⟨Place.spans_nil _, ?_⟩
      obtain ⟨next, others, hnext⟩ := List.exists_cons_of_ne_nil (entriesFrom_ne_nil {} t)
      obtain ⟨hfirst, hothers⟩ := ih hnext
      rw [hnext]
      exact List.forall_mem_cons.mpr ⟨hfirst, hothers⟩
    · obtain ⟨next, others, hnext⟩ := List.exists_cons_of_ne_nil (entriesFrom_ne_nil (place.next c) t)
      rw [entriesFrom_cons hc hnext] at h
      cases h
      obtain ⟨hfirst, hothers⟩ := ih hnext
      exact ⟨Place.spans_cons.mpr ⟨hc, hfirst⟩, hothers⟩

/-- An entry has no comma that separates. -/
theorem undivided_of_mem_entries {entry : Text} (hentry : entry ∈ entries inner)
    (h : Balanced entry) : Undivided entry := by
  rw [← Place.spans_iff_undivided h]
  obtain ⟨first, rest, hentries⟩ := List.exists_cons_of_ne_nil (entriesFrom_ne_nil {} inner)
  obtain ⟨hfirst, hrest⟩ := spans_of_entriesFrom hentries
  have hall := List.forall_mem_cons.mpr ⟨hfirst, hrest⟩
  rw [← hentries] at hall
  exact hall entry hentry

/-- Joined texts that are balanced and undivided are cut apart again at the same commas. -/
theorem entries_join {texts : List Text} (hne : texts ≠ [])
    (h : ∀ text ∈ texts, Balanced text ∧ Undivided text) :
    entries (Text.join [','] texts) = texts := by
  induction texts with
  | nil => exact absurd rfl hne
  | cons first rest ih =>
    obtain ⟨⟨hbalanced, hundivided⟩, hrest⟩ := List.forall_mem_cons.mp h
    have hspans := (Place.spans_iff_undivided hbalanced).mpr hundivided
    -- a balanced entry leaves nothing open, so the comma behind it separates
    have hplace : Place.after {} first = {} :=
      Place.after_ofBracketing (after_eq_ok_iff_balanced.mpr hbalanced)
    cases rest with
    | nil =>
      have hend : entriesFrom (Place.after {} first) [] = [] :: [] := rfl
      have hfirst := entriesFrom_append hspans hend
      have hjoin : Text.join [','] [first] = first := List.append_nil first
      rw [List.append_nil] at hfirst
      rw [hjoin]
      exact hfirst
    | cons second rest =>
      have htail := ih (List.cons_ne_nil _ _) hrest
      have hcomma : entriesFrom (Place.after {} first) (',' :: Text.join [','] (second :: rest)) =
          [] :: second :: rest := by
        rw [hplace, entriesFrom_comma, htail]
      rw [Text.join_cons (List.cons_ne_nil _ _), List.append_assoc]
      have hfirst := entriesFrom_append hspans hcomma
      rw [List.append_nil] at hfirst
      exact hfirst

/-- A balanced text is undivided just if it is cut nowhere. -/
theorem undivided_iff_entries {t : Text} (h : Balanced t) : Undivided t ↔ entries t = [t] := by
  constructor
  · intro hundivided
    have hjoin := entries_join (List.cons_ne_nil t [])
      (List.forall_mem_singleton.mpr ⟨h, hundivided⟩)
    rwa [Text.join_singleton] at hjoin
  · intro hentries
    exact undivided_of_mem_entries (hentries ▸ List.mem_singleton_self t) h

/-- The first entry of a text is checked as one that starts with no bracket open. -/
theorem forall_entries_iff :
    (∀ entry ∈ entries t, Balanced entry) ↔
      ∃ first rest, entries t = first :: rest ∧ Bracketing.after {} first = .ok {} ∧
        ∀ entry ∈ rest, Balanced entry := by
  obtain ⟨first, rest, hcut⟩ := List.exists_cons_of_ne_nil (entriesFrom_ne_nil {} t)
  have hentries : entries t = first :: rest := hcut
  rw [hentries, List.forall_mem_cons, ← after_eq_ok_iff_balanced]
  constructor
  · rintro ⟨hfirst, hrest⟩
    exact ⟨first, rest, rfl, hfirst, hrest⟩
  · rintro ⟨_, _, heq, hfirst, hrest⟩
    cases heq
    exact ⟨hfirst, hrest⟩

/-- The check of a text goes well just if it does for the rest of the entry in which it starts, and
from the start for every entry behind. -/
theorem after_eq_ok_iff :
    state.after t = .ok {} ↔
      ∃ first rest, entriesFrom (.ofBracketing state) t = first :: rest ∧
        state.after first = .ok {} ∧ ∀ entry ∈ rest, Balanced entry := by
  induction t generalizing state with
  | nil =>
    constructor
    · intro h
      exact ⟨[], [], rfl, h, fun entry hentry => absurd hentry List.not_mem_nil⟩
    · rintro ⟨first, rest, hentries, h, -⟩
      cases hentries
      exact h
  | cons c t ih =>
    by_cases hc : c = ',' ∧ (Place.ofBracketing state).separates = true
    · -- no bracket is open at the comma, so that the next entry starts as the text does
      obtain ⟨rfl, hseparates⟩ := hc
      rw [Place.separates_ofBracketing] at hseparates
      subst hseparates
      have hcomma : entriesFrom (.ofBracketing {}) (',' :: t) = [] :: entries t := entriesFrom_comma t
      rw [after_cons (next_comma []), ih, hcomma]
      constructor
      · intro h
        exact ⟨[], entries t, rfl, rfl, forall_entries_iff.mpr h⟩
      · rintro ⟨_, _, hcut, -, hall⟩
        cases hcut
        exact forall_entries_iff.mp hall
    · -- the character belongs to the entry in which the text starts
      constructor
      · intro h
        obtain ⟨middle, hnext, h⟩ := after_cons_eq_ok.mp h
        obtain ⟨first, rest, hentries, hfirst, hrest⟩ := ih.mp h
        rw [← Place.next_ofBracketing hnext] at hentries
        exact ⟨c :: first, rest, entriesFrom_cons hc hentries, after_cons_eq_ok.mpr ⟨middle, hnext, hfirst⟩,
          hrest⟩
      · rintro ⟨whole, rest, hentries, h, hrest⟩
        obtain ⟨first, others, hcut⟩ :=
          List.exists_cons_of_ne_nil (entriesFrom_ne_nil ((Place.ofBracketing state).next c) t)
        rw [entriesFrom_cons hc hcut] at hentries
        cases hentries
        obtain ⟨middle, hnext, h⟩ := after_cons_eq_ok.mp h
        rw [Place.next_ofBracketing hnext] at hcut
        exact after_cons_eq_ok.mpr ⟨middle, hnext, ih.mpr ⟨first, rest, hcut, h, hrest⟩⟩

/-- A text is balanced just if each of its entries is. -/
theorem balanced_iff_entries : Balanced inner ↔ ∀ entry ∈ entries inner, Balanced entry := by
  rw [forall_entries_iff, ← after_eq_ok_iff_balanced]
  exact after_eq_ok_iff

end Arguments

end Stylesheet
