import Stylesheet.Proofs.Document.Alternatives

/-!
# How the kinds of constructs are written

Most constructs stand on lines of one mark only, and a condition has a keyword of its own.

- `Construct.mark?`: the mark of the lines that say such a construct; `Construct.kind_of_traverse`
  says that filling in its expressions keeps it.
- `Reading.mark_of_ofLine`: a line that is read as a construct has the mark of the construct.
- `Line.isCondition`: whether a text is that of a condition; `Reading.isCondition_of_ofLine` says
  that a line is read as a condition if and only if it is that of one.
- `Reading.head?_of_include`: an include gives the name and the arguments that its line holds.
-/

namespace Stylesheet

open Parsing

variable {σ E : Type}

/-- Whether a text is that of a condition: a directive with the keyword of one. -/
def Line.isCondition (t : Text) : Bool :=
  t.head? == some Mark.directive.char && (Directive.ofText t).keyword == Keyword.condition.text

/-- The mark of the lines that say such a construct. A rule may stand behind any mark, and an
attribute behind its own or none. -/
def Construct.mark? : Construct E → Option Mark
  | .rule _ | .attribute _ _ _ => none
  | .comment _ _ _ => some .comment
  | .binding _ _ _ => some .binding
  | .mixinDefinition _ _ => some .definition
  | .mixinInclude _ _ => some .mixinInclude
  | .directive _ | .conditional _ | .whileLoop _ | .forLoop _ _ _ _ | .debug _ | .fileImport _
  | .cssImport _ => some .directive

/-- Filling in keeps what a construct is. -/
theorem Construct.kind_of_traverse {f : Slot → Parsing σ E} {c : Construct Slot} {filled : Construct E}
    {state next : σ} (h : Yields (c.traverse f) state filled next) :
    filled.mark? = c.mark? ∧ filled.isComment = c.isComment ∧
      filled.isConditional = c.isConditional := by
  match c, h with
  | .rule _, h | .comment _ _ _, h | .directive _, h | .attribute _ (.literal _) _, h
  | .conditional none, h | .fileImport _, h | .cssImport _, h =>
    obtain ⟨rfl, -⟩ := yields_pure.mp h
    exact ⟨rfl, rfl, rfl⟩
  | .attribute _ (.expression _) _, h | .binding _ _ _, h | .conditional (some _), h
  | .whileLoop _, h | .debug _, h | .mixinInclude _ _, h | .mixinDefinition _ _, h =>
    obtain ⟨_, _, -, h⟩ := yields_bind.mp h
    obtain ⟨rfl, -⟩ := yields_pure.mp h
    exact ⟨rfl, rfl, rfl⟩
  | .forLoop _ _ _ _, h =>
    obtain ⟨_, _, -, h⟩ := yields_bind.mp h
    obtain ⟨_, _, -, h⟩ := yields_bind.mp h
    obtain ⟨rfl, -⟩ := yields_pure.mp h
    exact ⟨rfl, rfl, rfl⟩

namespace Reading

/-- The mark of the lines that are read so. -/
def mark? : Reading → Option Mark
  | .construct c => c.mark?
  | .definition _ _ => some .definition
  | .imports _ | .branch _ => some .directive

/-- Whether a line is read as a condition. -/
def isCondition : Reading → Bool
  | .construct c => c.isConditional
  | _ => false

/-- A reading that lines of a mark may have. -/
def Suits (mark : Mark) (reading : Reading) : Prop := reading.mark? = none ∨ reading.mark? = some mark

variable {afterConditional : Bool} {line : Line} {reading : Reading} {mark : Mark}

theorem suits_rule (selector : Text) : (rule selector).Suits mark := .inl rfl

theorem eq_of_ofConstruct? {cause : Cause} {c? : Option (Construct Slot)}
    (h : ofConstruct? line cause c? = .ok reading) : ∃ c, c? = some c ∧ reading = .construct c := by
  unfold ofConstruct? at h
  split at h
  · rename_i c
    cases h
    exact ⟨c, rfl, rfl⟩
  · cases h

/-- An inline attribute is no construct that belongs to a mark. -/
theorem mark?_of_inline? {t : Text} {c : Construct Slot} (h : Attribute.inline? t = some c) :
    c.mark? = none := by
  unfold Attribute.inline? at h
  dsimp only at h
  split at h
  · cases h
  · split at h
    · cases h
      rfl
    · split at h
      · split at h
        · cases h
          rfl
        · cases h
      · cases h

theorem mark?_of_prefixed? {t : Text} {c : Construct Slot} (h : Attribute.prefixed? t = some c) :
    c.mark? = none := by
  unfold Attribute.prefixed? at h
  split at h
  · dsimp only at h
    split at h
    · cases h
    · split at h
      · cases h
        rfl
      · split at h
        · cases h
          rfl
        · cases h
  · cases h

theorem mark?_of_binding? {t : Text} {c : Construct Slot} (h : Variable.binding? t = some c) :
    c.mark? = some .binding := by
  unfold Variable.binding? at h
  simp only [Option.bind_eq_bind, Option.bind_eq_some_iff, Option.pure_def, Option.some.injEq] at h
  obtain ⟨_, _, _, _, _, _, rfl⟩ := h
  rfl

theorem mark?_ofPlain (h : ofPlain line = .ok reading) : reading.mark? = none := by
  unfold ofPlain at h
  split at h
  · obtain ⟨c, hc, rfl⟩ := eq_of_ofConstruct? h
    exact mark?_of_inline? hc
  · cases h
    rfl

theorem suits_ofAttribute (h : ofAttribute line = .ok reading) : reading.Suits .attribute := by
  unfold ofAttribute at h
  split at h
  · cases h
    exact suits_rule _
  · obtain ⟨c, hc, rfl⟩ := eq_of_ofConstruct? h
    exact .inl (mark?_of_prefixed? hc)

theorem suits_ofBinding (h : ofBinding line = .ok reading) : reading.Suits .binding := by
  obtain ⟨_, -, h⟩ := bind_eq_ok.mp h
  obtain ⟨c, hc, rfl⟩ := eq_of_ofConstruct? h
  exact .inr (mark?_of_binding? hc)

/-- A line that starts with a slash is a comment or a rule. -/
theorem suits_ofComment (h : ofComment line = .ok reading) : reading.Suits .comment := by
  unfold ofComment at h
  split at h
  · cases h
    exact .inr rfl
  · cases h
    exact .inr rfl
  · cases h
    exact suits_rule _

/-- A line that starts with an equals sign is a definition, or it cannot be read. -/
theorem suits_ofDefinition (h : ofDefinition line = .ok reading) : reading.Suits .definition := by
  unfold ofDefinition at h
  split at h
  · cases h
    exact .inr rfl
  · cases h

/-- A line with the sign of an include is a rule, or says what the sign is followed by. -/
theorem cases_ofInclude (h : ofInclude line = .ok reading) :
    reading = rule line.text ∨
      ∃ name arguments, Mixin.head? '+' line.text = some (name, arguments) ∧
        reading = .construct (.mixinInclude name arguments) := by
  unfold ofInclude at h
  split at h
  · cases h
    exact .inl rfl
  · obtain ⟨_, -, h⟩ := bind_eq_ok.mp h
    split at h
    · cases h
    · rename_i name arguments hhead
      split at h
      · cases h
      · cases h
        exact .inr ⟨name, arguments, hhead, rfl⟩

/-- A line that starts with a plus sign is an include or a rule. -/
theorem suits_ofInclude (h : ofInclude line = .ok reading) : reading.Suits .mixinInclude := by
  rcases cases_ofInclude h with rfl | ⟨name, arguments, -, rfl⟩
  · exact suits_rule _
  · exact .inr rfl

/-! ## Directives -/

/-- A loop head is read as a loop. -/
theorem eq_of_loop {column : Int} {t head : Text} {c : Construct Slot}
    (h : Loop.read t column head = .ok c) :
    ∃ name first last inclusive, c = .forLoop name first last inclusive := by
  unfold Loop.read at h
  split at h
  · cases h
  · split at h
    · cases h
      exact ⟨_, _, _, _, rfl⟩
    · cases h

/-- A directive is read by its keyword, and only that of a condition gives one. -/
theorem cases_ofDirective (h : ofDirective afterConditional line = .ok reading) :
    reading.Suits .directive ∧
      reading.isCondition =
        (Keyword.ofText? (Directive.ofText line.text).keyword == some .condition) := by
  unfold ofDirective at h
  dsimp only at h
  split at h
  -- one case for each keyword, in the order of the definition, and in front the one without a
  -- keyword
  case h_1 hkeyword =>
    cases h
    rw [hkeyword]
    exact ⟨.inr rfl, rfl⟩
  case h_2 hkeyword =>
    rw [hkeyword]
    unfold ofImport at h
    split at h
    · cases h
    · cases h
    · -- lines beneath are forbidden first, and that says nothing about the reading
      obtain ⟨_, -, h⟩ := bind_eq_ok.mp h
      cases h
      exact ⟨.inr rfl, rfl⟩
  case h_3 hkeyword =>
    rw [hkeyword]
    unfold ofAlternative at h
    split at h
    · cases h
    · split at h
      · cases h
        exact ⟨.inr rfl, rfl⟩
      · cases h
        exact ⟨.inr rfl, rfl⟩
      · split at h
        · cases h
        · cases h
          exact ⟨.inr rfl, rfl⟩
  case h_4 hkeyword =>
    rw [hkeyword]
    split at h
    · rename_i hread
      obtain ⟨name, first, last, inclusive, rfl⟩ := eq_of_loop hread
      cases h
      exact ⟨.inr rfl, rfl⟩
    · cases h
  case h_5 hkeyword =>
    rw [hkeyword]
    obtain ⟨_, -, h⟩ := bind_eq_ok.mp h
    cases h
    exact ⟨.inr rfl, rfl⟩
  case h_6 hkeyword =>
    rw [hkeyword]
    obtain ⟨_, -, h⟩ := bind_eq_ok.mp h
    cases h
    exact ⟨.inr rfl, rfl⟩
  case h_7 hkeyword =>
    rw [hkeyword]
    obtain ⟨_, -, h⟩ := bind_eq_ok.mp h
    obtain ⟨_, -, h⟩ := bind_eq_ok.mp h
    cases h
    exact ⟨.inr rfl, rfl⟩

/-! ## All lines -/

/-- A line that is read by a mark says what belongs to this mark, or a rule. -/
theorem suits_ofMark (h : ofMark afterConditional line mark = .ok reading) : reading.Suits mark := by
  match mark, h with
  | .binding, h => exact suits_ofBinding h
  | .mixinInclude, h => exact suits_ofInclude h
  | .comment, h => exact suits_ofComment h
  | .attribute, h => exact suits_ofAttribute h
  | .definition, h => exact suits_ofDefinition h
  | .directive, h => exact (cases_ofDirective h).1
  | .escape, h =>
    cases h
    exact suits_rule _

/-- A line that starts with a mark is read by it. -/
theorem ofLine_of_mark (h : line.text.head? = some mark.char) (afterConditional : Bool) :
    ofLine afterConditional line = ofMark afterConditional line mark := by
  unfold ofLine
  rw [h, Option.bind_some, Mark.ofChar?_char]

/-- A line that is read as a construct has the mark of the construct. -/
theorem mark_of_ofLine (h : ofLine afterConditional line = .ok reading)
    (hmark : reading.mark? = some mark) :
    line.text.head? = some mark.char ∧ ofMark afterConditional line mark = .ok reading := by
  unfold ofLine at h
  split at h
  · rename_i other hother
    obtain ⟨c, hhead, hc⟩ := Option.bind_eq_some_iff.mp hother
    rcases suits_ofMark h with hnone | hsome
    · rw [hnone] at hmark
      cases hmark
    · rw [hsome] at hmark
      cases hmark
      exact ⟨by rw [hhead, char_of_ofChar? hc], h⟩
  · rw [mark?_ofPlain h] at hmark
    cases hmark

/-- An include gives the name and the arguments that its line holds. -/
theorem head?_of_include {name : Text} {arguments : List Slot}
    (h : ofLine afterConditional line = .ok (.construct (.mixinInclude name arguments))) :
    Mixin.head? '+' line.text = some (name, arguments) := by
  obtain ⟨-, hread⟩ := mark_of_ofLine h rfl
  rcases cases_ofInclude hread with heq | ⟨_, _, hhead, heq⟩
  · cases heq
  · cases heq
    exact hhead

/-- A line is read as a condition if and only if it is that of one. -/
theorem isCondition_of_ofLine (h : ofLine afterConditional line = .ok reading) :
    reading.isCondition = Line.isCondition line.text := by
  unfold Line.isCondition
  by_cases hhead : line.text.head? = some Mark.directive.char
  · have hmark : line.text.head?.bind Mark.ofChar? = some .directive := by
      rw [hhead]
      exact Mark.ofChar?_char .directive
    unfold ofLine at h
    rw [hmark] at h
    rw [(cases_ofDirective h).2, hhead, beq_self_eq_true, Bool.true_and]
    by_cases hword : (Directive.ofText line.text).keyword = Keyword.condition.text
    · rw [hword, Keyword.ofText?_text, beq_self_eq_true, beq_self_eq_true]
    · rw [beq_false_of_ne hword]
      refine beq_false_of_ne fun hkeyword => hword ?_
      exact (Keyword.text_of_ofText? hkeyword).symm
  · rw [beq_false_of_ne hhead, Bool.false_and]
    -- behind another mark nothing is read as a condition, since that belongs to the mark of
    -- directives
    cases hcondition : reading.isCondition with
    | false => rfl
    | true =>
      have hmark : reading.mark? = some .directive := by
        match reading, hcondition with
        | .construct (.conditional _), _ => rfl
      exact absurd (mark_of_ofLine h hmark).1 hhead

end Reading

end Stylesheet
