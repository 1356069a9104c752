import Stylesheet.Proofs.Document.Reading

/-!
# The lines of alternative branches

What a line says depends on the node in front of it in one case only: an alternative branch needs a
condition there.

- `Line.isAlternative`: whether a text is that of an alternative branch.
- `Reading.ofLine_eq`: any other line reads the same wherever it stands.
- `Reading.isBranch_of_ofLine`: a line is read as a branch if and only if it is that of one.
- `Reading.isBranch_of_resolve`: and a branch is put into a document just if a line is read as one.
- `Reading.ofLine_of_false`: a line that needs no condition in front of it may have one.
-/

namespace Stylesheet

open Parsing

/-- Whether a text is that of an alternative branch: a directive with the keyword of one. -/
def Line.isAlternative (t : Text) : Bool :=
  t.head? == some Mark.directive.char &&
    (Directive.ofText t).keyword == Keyword.alternative.text

/-- Whether a line puts a branch into a document. -/
def Outcome.isBranch {E : Type} : Outcome E → Bool
  | .branch _ => true
  | _ => false

theorem Keyword.text_of_ofText? {t : Text} {keyword : Keyword} (h : ofText? t = some keyword) :
    keyword.text = t := by
  have hfound := List.find?_some h
  exact eq_of_beq hfound

namespace Reading

/-- Whether a line is read as a branch. -/
def isBranch : Reading → Bool
  | .branch _ => true
  | _ => false

variable {line : Line} {reading : Reading}

/-- A line that does not start an alternative branch reads the same with and without a condition in
front of it. -/
theorem ofLine_eq (h : Line.isAlternative line.text = false) (afterConditional : Bool) :
    ofLine afterConditional line = ofLine false line := by
  unfold ofLine
  split
  · rename_i mark hmark
    match mark, hmark with
    | .binding, _ | .mixinInclude, _ | .comment, _ | .attribute, _ | .definition, _ | .escape, _ =>
      rfl
    | .directive, hmark =>
      show ofDirective afterConditional line = ofDirective false line
      unfold ofDirective
      dsimp only
      split
      case h_3 hkeyword =>
        obtain ⟨c, hhead, hc⟩ := Option.bind_eq_some_iff.mp hmark
        have hdirective : line.text.head? = some Mark.directive.char := by
          rw [hhead, char_of_ofChar? hc]
        have hword := Keyword.text_of_ofText? hkeyword
        unfold Line.isAlternative at h
        rw [hdirective, ← hword] at h
        simp at h
      all_goals rfl
  · rfl

/-- The line of an alternative branch is read as such. -/
theorem ofLine_of_isAlternative (h : Line.isAlternative line.text = true) (afterConditional : Bool) :
    ofLine afterConditional line =
      ofAlternative afterConditional line (Directive.ofText line.text) := by
  unfold Line.isAlternative at h
  rw [Bool.and_eq_true, beq_iff_eq, beq_iff_eq] at h
  obtain ⟨hhead, hword⟩ := h
  have hmark : line.text.head?.bind Mark.ofChar? = some .directive := by
    rw [hhead]
    exact Mark.ofChar?_char .directive
  unfold ofLine
  rw [hmark]
  show ofDirective afterConditional line = _
  unfold ofDirective
  dsimp only
  rw [hword, Keyword.ofText?_text]

/-- A line is read as a branch if and only if it is that of one. -/
theorem isBranch_of_ofLine {afterConditional : Bool}
    (h : ofLine afterConditional line = .ok reading) :
    reading.isBranch = Line.isAlternative line.text := by
  cases halternative : Line.isAlternative line.text with
  | true =>
    rw [ofLine_of_isAlternative halternative] at h
    unfold ofAlternative at h
    split at h
    · cases h
    · split at h
      · cases h
        rfl
      · cases h
        rfl
      · split at h
        · cases h
        · cases h
          rfl
  | false =>
    -- without a condition in front of it, no line is read as a branch
    rw [ofLine_eq halternative] at h
    have hechoes := echoes_of_ofLine h
    cases reading with
    | branch test => cases hechoes
    | construct | definition | imports => rfl

/-- What is read without a condition in front of a line is read with one as well. -/
theorem ofLine_of_false (h : ofLine false line = .ok reading) (afterConditional : Bool) :
    ofLine afterConditional line = .ok reading := by
  cases halternative : Line.isAlternative line.text with
  | true =>
    rw [ofLine_of_isAlternative halternative] at h
    cases h
  | false => rw [ofLine_eq halternative, h]

/-- What can be read at all is read so behind a condition. -/
theorem ofLine_true {afterConditional : Bool} (h : ofLine afterConditional line = .ok reading) :
    ofLine true line = .ok reading := by
  cases afterConditional with
  | true => exact h
  | false => exact ofLine_of_false h true

/-- Only a line that is read as a branch puts one into a document. -/
theorem isBranch_of_resolve {σ E : Type} {services : Services σ E} {directories : List Text} {line : Line}
    {reading : Reading} {outcome : Outcome E} {state next : σ}
    (h : Yields (reading.resolve services directories line) state outcome next) :
    reading.isBranch = outcome.isBranch := by
  match reading, h with
  | .construct _, h | .definition _ _, h | .imports _, h | .branch (some _), h =>
    obtain ⟨_, _, -, h⟩ := yields_bind.mp h
    obtain ⟨rfl, -⟩ := yields_pure.mp h
    rfl
  | .branch none, h =>
    obtain ⟨rfl, -⟩ := yields_pure.mp h
    rfl

end Reading

end Stylesheet
