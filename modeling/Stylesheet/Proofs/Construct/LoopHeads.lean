import Stylesheet.Proofs.Construct.Columns
import Stylesheet.Proofs.Construct.Parameters
import Stylesheet.Proofs.Expression.Reading

/-!
# Loop heads as they are written

The first expression of a loop head is as long as it can be, so the words in front of the last one
are the last ones that can be. If no such word stands in the last expression, a head is read as it
is written, whatever words stand in the first one.

- `Loop.Written`: the parts of the line of a loop, and the blanks between them.
- `Loop.WordIn`: a word in a text that could stand in front of a last expression.
- `Loop.bound?_eq_none`: nothing behind the word of a head can be taken for the word and a last
  expression.
- `Loop.read_written`: such a head is read as its parts, each at its column.
-/

namespace Stylesheet

open Text

/-! ## Texts that are cut twice -/

/-- A text that is cut in two ways is cut later where the second part starts with a character that
does not occur in front of the first cut. -/
theorem Text.append_split {a b c d : Text} {x : Char} (h : a ++ b = c ++ x :: d) (hx : x ∉ a) :
    ∃ middle, c = a ++ middle ∧ b = middle ++ x :: d := by
  rcases List.append_eq_append_iff.mp h with ⟨middle, hc, hb⟩ | ⟨middle, ha, hd⟩
  · exact ⟨middle, hc, hb⟩
  · cases middle with
    | nil =>
      rw [List.append_nil] at ha
      exact ⟨[], by rw [ha, List.append_nil], hd.symm⟩
    | cons y middle =>
      cases hd
      exact absurd (ha ▸ List.mem_append_right c List.mem_cons_self) hx

namespace Loop

/-! ## How the line of a loop is written -/

/-- The word in front of the last expression. -/
def word (inclusive : Bool) : Text := if inclusive then "through" else "to"

/-- The parts of the line of a loop, and what stands between them. -/
structure Written where
  name : Text
  first : Text
  last : Text
  inclusive : Bool
  behindKeyword : Text
  beforeFrom : Text
  behindFrom : Text
  beforeWord : Text
  behindWord : Text

namespace Written

/-- The head up to the first expression. -/
def opening (loop : Written) : Text :=
  Variable.mark :: loop.name ++ (loop.beforeFrom ++ ("from" ++ loop.behindFrom))

/-- What stands between the two expressions. -/
def between (loop : Written) : Text := loop.beforeWord ++ (word loop.inclusive ++ loop.behindWord)

/-- The head: all that stands behind the keyword and its blanks. -/
def head (loop : Written) : Text := loop.opening ++ (loop.first ++ (loop.between ++ loop.last))

/-- The line up to the first expression. -/
def beforeFirst (loop : Written) : Text := "@for" ++ loop.behindKeyword ++ loop.opening

/-- The line up to the last expression. -/
def beforeLast (loop : Written) : Text := loop.beforeFirst ++ loop.first ++ loop.between

/-- The line. -/
def text (loop : Written) : Text := loop.beforeLast ++ loop.last

end Written

/-- A gap of spaces and tabs. -/
structure Gap (t : Text) : Prop where
  ne_nil : t ≠ []
  indents : ∀ c ∈ t, c = ' ' ∨ c = '\t'

/-- A text that is an expression as it stands, on one line. -/
structure Sole (t : Text) : Prop where
  readable : ∃ site offset e, Expression.read t site offset = .ok e
  trimmed : trim t = t
  unbroken : t.any isLineBreak = false

/-- A word in a text that could stand in front of a last expression: it is at the start or behind a
blank, and in front of a blank. -/
structure WordIn (t front back : Text) (inclusive : Bool) : Prop where
  split : t = front ++ (word inclusive ++ back)
  front : ∀ c ∈ front.getLast?, isBlank c = true
  back : startsBlank back = true

/-- What is asked of the parts. -/
structure Written.Sound (loop : Written) : Prop where
  name : Variable.isName loop.name = true
  first : Sole loop.first
  last : Sole loop.last
  wordless : ∀ front back inclusive, ¬WordIn loop.last front back inclusive
  behindKeyword : Gap loop.behindKeyword
  beforeFrom : Gap loop.beforeFrom
  behindFrom : Gap loop.behindFrom
  beforeWord : Gap loop.beforeWord
  behindWord : Gap loop.behindWord

variable {t gap : Text} {inclusive : Bool} {loop : Written}

theorem Gap.isBlank_of_mem (h : Gap t) {c : Char} (hc : c ∈ t) : isBlank c = true := by
  rcases h.indents c hc with rfl | rfl <;> decide

theorem Gap.all (h : Gap t) : t.all isBlank = true :=
  List.all_eq_true.mpr fun _ hc => h.isBlank_of_mem hc

theorem Sole.ne_nil (h : Sole t) : t ≠ [] := by
  rintro rfl
  obtain ⟨_, _, _, hread⟩ := h.readable
  exact (Expression.read_eq_ok_iff.mp hread).1 rfl

theorem Sole.startsBlank (h : Sole t) : startsBlank t = false := by
  rw [← h.trimmed]
  exact startsBlank_trim t

theorem Sole.isClause (h : Sole t) : isClause t = true := by
  simp [Loop.isClause, h.ne_nil, h.unbroken]

theorem unbroken_of_indents (h : ∀ c ∈ gap, c = ' ' ∨ c = '\t') : gap.any isLineBreak = false := by
  rw [List.any_eq_false]
  intro c hc
  rcases h c hc with rfl | rfl <;> decide

theorem Gap.unbroken (h : Gap t) : t.any isLineBreak = false := unbroken_of_indents h.indents

/-- An expression may have blanks behind it. -/
theorem Sole.isClause_append (h : Sole t) (hgap : ∀ c ∈ gap, c = ' ' ∨ c = '\t') :
    Loop.isClause (t ++ gap) = true := by
  have hunbroken : (t ++ gap).any isLineBreak = false := by
    rw [List.any_append, h.unbroken, unbroken_of_indents hgap]
    rfl
  simp [Loop.isClause, h.ne_nil, hunbroken]

/-! ## Words -/

/-- A text without blanks has no such word in it. -/
theorem not_wordIn_of_visible {front back : Text} (h : ∀ c ∈ t, isBlank c = false) :
    ¬WordIn t front back inclusive := by
  rintro ⟨rfl, -, hback⟩
  cases back with
  | nil => cases hback
  | cons c back =>
    have hmem : c ∈ front ++ (word inclusive ++ c :: back) :=
      List.mem_append_right front (List.mem_append_right _ List.mem_cons_self)
    exact absurd (hback.symm.trans (h c hmem)) Bool.noConfusion

/-- A word is found where it is written. -/
theorem word?_word (inclusive : Bool) (t : Text) : word? (word inclusive ++ t) = some (inclusive, t) := by
  cases inclusive <;> rfl

/-- What is found as a word is one, with the rest behind it. -/
theorem eq_of_word? {rest : Text} (h : word? t = some (inclusive, rest)) : t = word inclusive ++ rest := by
  unfold word? at h
  split at h
  · cases h
    rfl
  · cases h
    rfl
  · cases h

/-- Each of the words starts with the same letter. -/
theorem exists_word (inclusive : Bool) : ∃ rest, word inclusive = 't' :: rest := by
  cases inclusive
  · exact ⟨['o'], rfl⟩
  · exact ⟨"hrough".toList, rfl⟩

theorem startsBlank_word (inclusive : Bool) (t : Text) : startsBlank (word inclusive ++ t) = false := by
  cases inclusive <;> rfl

theorem not_isBlank_of_mem_word {c : Char} (hc : c ∈ word inclusive) : isBlank c = false := by
  have hvisible : (word inclusive).any isBlank = false := by cases inclusive <;> decide
  exact visible_of_any hvisible c hc

/-- What is taken for a word and a last expression starts with blanks, a word and a blank. -/
theorem shape_of_bound? {last : Text} (h : bound? t = some (inclusive, last)) :
    ∃ blanks back, t = blanks ++ (word inclusive ++ back) ∧ blanks ≠ [] ∧ blanks.all isBlank = true ∧
      startsBlank back = true := by
  unfold bound? at h
  by_cases hblank : startsBlank t = true
  · rw [if_neg (by simpa using hblank)] at h
    obtain ⟨⟨inclusive', back⟩, hword, h⟩ := Option.bind_eq_some_iff.mp h
    obtain ⟨cut, hfound, h⟩ := Option.bind_eq_some_iff.mp h
    cases h
    refine ⟨leadingBlanks t, back, ?_, ?_, all_leadingBlanks t,
      startsBlank_of_mem_blankCuts (List.mem_of_find?_eq_some hfound)⟩
    · rw [← eq_of_word? hword, leadingBlanks_append_trimStart]
    · intro hnil
      have hstart : trimStart t = t := by
        rw [← leadingBlanks_append_trimStart t, hnil, List.nil_append, trimStart_eq_self]
        exact startsBlank_trimStart t
      rw [← hstart, startsBlank_trimStart] at hblank
      cases hblank
  · rw [if_pos (by simpa using hblank)] at h
    cases h

/-- Blanks, a word, blanks and an expression are taken for just that. -/
theorem bound?_written {c : Char} {last : Text} (hc : isBlank c = true) (hgap : Gap gap)
    (hlast : Sole last) : bound? (c :: (word inclusive ++ (gap ++ last))) = some (inclusive, last) := by
  have hstart : trimStart (c :: (word inclusive ++ (gap ++ last))) = word inclusive ++ (gap ++ last) :=
    (List.dropWhile_cons_of_pos hc).trans (trimStart_eq_self (startsBlank_word inclusive _))
  obtain ⟨others, hcuts⟩ := blankCuts_padded hgap.all
    (List.length_pos_iff.mpr hgap.ne_nil) hlast.startsBlank
  unfold bound?
  rw [if_neg (by simpa [Text.startsBlank] using hc), hstart, word?_word]
  show ((blankCuts 1 (gap ++ last)).find? _ >>= _) = _
  rw [hcuts, List.find?_cons_of_pos]
  · rfl
  · exact hlast.isClause

/-- Behind the word of a head, nothing can be taken for a word and a last expression. -/
theorem bound?_eq_none (hgap : Gap gap) (hwordless : ∀ front back inclusive, ¬WordIn t front back inclusive)
    {rest : Text} (hrest : rest <:+ word inclusive ++ (gap ++ t)) : bound? rest = none := by
  cases hbound : bound? rest with
  | none => rfl
  | some found =>
    obtain ⟨blanks, back, rfl, hne, hblanks, hback⟩ := shape_of_bound? hbound
    obtain ⟨c, blanks, rfl⟩ := List.exists_cons_of_ne_nil hne
    obtain ⟨front, hfront⟩ := hrest
    have hc : isBlank c = true := List.all_eq_true.mp hblanks c List.mem_cons_self
    obtain ⟨others, hothers⟩ := exists_word found.1
    -- the blanks that were found are none of the first word
    obtain ⟨front', -, hbehind⟩ := append_split hfront.symm fun hmem =>
      absurd (hc.symm.trans (not_isBlank_of_mem_word hmem)) Bool.noConfusion
    have hbehind : gap ++ t = front' ++ c :: blanks ++ 't' :: (others ++ back) := by
      rw [hbehind, hothers, List.append_assoc]
      rfl
    -- and the word that was found is none of the blanks behind that
    obtain ⟨middle, hmiddle, ht⟩ := append_split hbehind fun hmem => by
      rcases hgap.indents _ hmem with heq | heq <;> exact absurd heq (by decide)
    refine absurd ⟨?_, fun d hd => ?_, hback⟩ (hwordless middle back found.1)
    · rw [ht, hothers]
      rfl
    · have hlast : d ∈ (front' ++ c :: blanks).getLast? := by
        rw [hmiddle]
        exact List.mem_getLast?_append_of_mem_getLast? hd
      rw [List.getLast?_append_of_ne_nil front' hne] at hlast
      exact List.all_eq_true.mp hblanks d (List.mem_of_mem_getLast? hlast)

/-! ## Heads -/

/-- What follows the name of a loop up to the last expression starts with its blanks and its
word. -/
theorem afterFrom?_written (hgap : Gap gap) (t : Text) : afterFrom? (gap ++ ("from" ++ t)) = some t := by
  have hblank : Text.startsBlank (gap ++ ("from" ++ t)) = true := by
    obtain ⟨c, rest, rfl⟩ := List.exists_cons_of_ne_nil hgap.ne_nil
    exact hgap.isBlank_of_mem List.mem_cons_self
  have hword : trimStart (gap ++ ("from" ++ t)) = "from" ++ t := trimStart_padded hgap.all rfl
  unfold afterFrom?
  rw [if_pos hblank, hword]
  rfl

/-- The first expression is taken up to the last blank in front of the word: no longer text in its
place leaves a word and a last expression behind. -/
theorem findSome?_written (h : loop.Sound) {c : Char} (hgap : loop.beforeWord = gap ++ [c])
    (name fromFirst : Text) :
    (cuts (loop.first ++ (loop.between ++ loop.last))).findSome? (fun cut => do
        if !isClause cut.1 then none
        let found ← bound? cut.2
        return (⟨name, fromFirst, cut.1, found.2, found.1⟩ : Clauses)) =
      some ⟨name, fromFirst, loop.first ++ gap, loop.last, loop.inclusive⟩ := by
  have hindents : ∀ d ∈ gap, d = ' ' ∨ d = '\t' := fun d hd =>
    h.beforeWord.indents d (hgap ▸ List.mem_append_left [c] hd)
  have hc : isBlank c = true :=
    h.beforeWord.isBlank_of_mem (hgap ▸ List.mem_append_right gap List.mem_cons_self)
  have hsplit : loop.first ++ (loop.between ++ loop.last) =
      loop.first ++ gap ++ c :: (word loop.inclusive ++ (loop.behindWord ++ loop.last)) := by
    simp only [Written.between, hgap, List.append_assoc, List.cons_append, List.nil_append]
  rw [hsplit]
  refine findSome?_cuts ?_ fun d more behind hlonger => ?_
  · dsimp only
    rw [h.first.isClause_append hindents, bound?_written hc h.behindWord h.last]
    rfl
  · dsimp only
    have hbehind : behind <:+ word loop.inclusive ++ (loop.behindWord ++ loop.last) :=
      ⟨more, (List.cons.inj hlonger).2.symm⟩
    rw [bound?_eq_none h.behindWord h.wordless hbehind]
    split <;> rfl

/-- A head is read as it is written. -/
theorem clauses?_written (h : loop.Sound) (hgap : ∃ c, loop.beforeWord = gap ++ [c]) :
    clauses? loop.head =
      some ⟨Variable.mark :: loop.name, loop.first ++ (loop.between ++ loop.last), loop.first ++ gap,
        loop.last, loop.inclusive⟩ := by
  obtain ⟨c, hgap⟩ := hgap
  have hname : ∀ d ∈ Variable.mark :: loop.name, isBlank d = false := by
    refine List.forall_mem_cons.mpr ⟨by decide, fun d hd => ?_⟩
    exact isBlank_eq_false_of_isWord (Variable.isWord_of_isName h.name hd)
  have hhead : loop.head = Variable.mark :: loop.name ++ (loop.beforeFrom ++
      ("from" ++ (loop.behindFrom ++ (loop.first ++ (loop.between ++ loop.last))))) := by
    simp only [Written.head, Written.opening, List.append_assoc]
  obtain ⟨htake, hdrop⟩ := cut_at_blank hname h.beforeFrom.all h.beforeFrom.ne_nil
    ("from" ++ (loop.behindFrom ++ (loop.first ++ (loop.between ++ loop.last))))
  have hfirst : Text.startsBlank (loop.first ++ (loop.between ++ loop.last)) = false := by
    obtain ⟨d, rest, hd⟩ := List.exists_cons_of_ne_nil h.first.ne_nil
    have hstart := h.first.startsBlank
    rw [hd] at hstart ⊢
    exact hstart
  -- the first expression does not start with a blank, so all blanks behind the word are cut off
  -- first
  obtain ⟨others, hcuts⟩ := blankCuts_padded h.behindFrom.all
    (List.length_pos_iff.mpr h.behindFrom.ne_nil) hfirst
  have hsearch := findSome?_written h hgap (Variable.mark :: loop.name)
    (loop.first ++ (loop.between ++ loop.last))
  unfold clauses? splitName
  rw [hhead]
  dsimp only
  rw [htake, hdrop]
  show (afterFrom? _ >>= _) = _
  rw [afterFrom?_written h.beforeFrom]
  show (blankCuts 1 _).findSome? _ = _
  rw [hcuts, List.findSome?_cons_of_isSome]
  · exact hsearch
  · exact Option.isSome_of_eq_some hsearch

/-- The line of a loop is read as its parts, each at its column. The blanks in front of the word,
but for the last one, still belong to the slot of the first expression. -/
theorem read_written (h : loop.Sound) (line : Text) (column : Int) :
    ∃ gap, gap.all isBlank = true ∧
      read line column loop.head =
        .ok (.forLoop loop.name ⟨loop.first ++ gap, column + units loop.opening⟩
          ⟨loop.last, column + units (loop.opening ++ loop.first ++ loop.between)⟩ loop.inclusive) := by
  obtain ⟨gap, c, hgap⟩ := (List.eq_nil_or_concat loop.beforeWord).resolve_left h.beforeWord.ne_nil
  rw [List.concat_eq_append] at hgap
  refine ⟨gap, ?_, ?_⟩
  · refine List.all_eq_true.mpr fun d hd => h.beforeWord.isBlank_of_mem ?_
    exact hgap ▸ List.mem_append_left [c] hd
  · have hname : Variable.isReference (Variable.mark :: loop.name) = true :=
      Variable.isReference_iff.mpr ⟨loop.name, rfl, h.name⟩
    unfold read
    rw [clauses?_written h ⟨c, hgap⟩]
    dsimp only
    rw [if_pos hname, List.tail_cons]
    simp only [Written.head, units_append]
    congr 4 <;> omega

end Loop

end Stylesheet
