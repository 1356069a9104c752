import Stylesheet.Proofs.Construct.Columns
import Stylesheet.Proofs.Document.Reading

/-!
# Where the expressions of a line stand

An expression either is delimited, and stands at its column, or runs on to the end of its line. Then
its text ends at the first line break, if the line has one, while its column is counted from the end
of the line.

- `Slot.RunsOn`: what is asked of the slot of an expression that runs on.
- `Construct.Placed`, `Reading.Placed`: where the expressions of a construct, or of what a line was
  read as, stand in the line.
- `Reading.placed_of_ofLine`: the expressions of every line that can be read stand there.
-/

namespace Stylesheet

/-! ## Values at the end of a line -/

/-- A value that runs up to the first line break behind the place where it starts. Its column is
that of a text with which the line ends. -/
structure Slot.RunsOn (line : Text) (slot : Slot) : Prop where
  text : Text.RunsOn line slot.text
  column : slot.column = Text.units line - Text.units slot.text

/-- Where the expressions of a construct stand in its line, and the text of an attribute. -/
structure Construct.Placed (line : Text) (c : Construct Slot) : Prop where
  delimited : ∀ part slot, (part, slot) ∈ c.parts → part.isOpen = false → slot.Placed line
  runsOn : ∀ part slot, (part, slot) ∈ c.parts → part.isOpen = true → slot.RunsOn line
  literal : ∀ name text form, c = .attribute name (.literal text) form → Text.RunsOn line text

/-- A construct without expressions, and without a text of its own, has nothing to place. -/
theorem Construct.placed_of_parts {line : Text} {c : Construct Slot} (hparts : c.parts = [])
    (h : ∀ name value form, c ≠ .attribute name value form) : c.Placed line := by
  refine ⟨?_, ?_, fun name text form heq => absurd heq (h name _ form)⟩
  · intro part slot hslot
    rw [hparts] at hslot
    exact absurd hslot List.not_mem_nil
  · intro part slot hslot
    rw [hparts] at hslot
    exact absurd hslot List.not_mem_nil

namespace Attribute

variable {line value : Text}

/-- A computed value that ends the line stands at the end of it. -/
theorem placed_computed (h : value <:+ line) (name : Text) (form : AttributeForm) :
    (computed line name value form).Placed line := by
  refine ⟨?_, ?_, fun _ _ _ heq => nomatch heq⟩
  · intro part slot hslot hclosed
    cases List.mem_singleton.mp hslot
    cases hclosed
  · intro part slot hslot _
    cases List.mem_singleton.mp hslot
    exact ⟨⟨value, h, rfl⟩, rfl⟩

/-- So does a text of an attribute. -/
theorem placed_literal (h : value <:+ line) (name : Text) (form : AttributeForm) :
    (literal name value form).Placed line := by
  refine ⟨fun _ _ hslot => absurd hslot List.not_mem_nil,
    fun _ _ hslot => absurd hslot List.not_mem_nil, ?_⟩
  intro name' text form' heq
  cases heq
  exact ⟨value, h, rfl⟩

/-- What is assigned behind an equals sign ends where the text ends. -/
theorem isSuffix_assigned? {t : Text} (h : assigned? t = some value) : value <:+ t := by
  unfold assigned? at h
  split at h
  · split at h
    · cases h
      exact (Text.isSuffix_trimStart _).trans (List.suffix_cons _ _)
    · cases h
  · cases h

/-- An attribute with a mark in front holds the end of its line. -/
theorem placed_prefixed? {c : Construct Slot} (h : prefixed? line = some c) : c.Placed line := by
  unfold prefixed? at h
  split at h
  · rename_i t
    -- all that is cut off lies in front: the mark, the name, and the blanks behind it
    have hrest : Text.trimStart (t.dropWhile isNameChar) <:+ ':' :: t :=
      (Text.isSuffix_trimStart _).trans ((List.dropWhile_suffix _).trans (List.suffix_cons _ _))
    dsimp only at h
    split at h
    · cases h
    · split at h
      · rename_i hassigned
        cases h
        exact placed_computed ((isSuffix_assigned? hassigned).trans hrest) _ _
      · split at h
        · cases h
          exact placed_literal hrest _ _
        · cases h
  · cases h

/-- An attribute with its name in front holds the end of its line, too. -/
theorem placed_inline? {c : Construct Slot} (h : inline? line = some c) : c.Placed line := by
  have hrest : line.dropWhile isNameChar <:+ line := List.dropWhile_suffix _
  unfold inline? at h
  dsimp only at h
  split at h
  · cases h
  · split at h
    · -- a computed value comes first, and a text behind a colon only where there is none
      rename_i hassigned
      cases h
      exact placed_computed
        ((isSuffix_assigned? hassigned).trans ((Text.isSuffix_trimStart _).trans hrest)) _ _
    · split at h
      · rename_i t hcolon
        split at h
        · cases h
          rw [hcolon] at hrest
          exact placed_literal
            ((Text.isSuffix_trimStart t).trans ((List.suffix_cons _ _).trans hrest)) _ _
        · cases h
      · cases h

end Attribute

namespace Variable

/-- Behind the sign of a variable the rest of the line is left. -/
theorem isSuffix_sign? {t rest : Text} {guarded : Bool} (h : sign? t = some (guarded, rest)) :
    rest <:+ t := by
  unfold sign? at h
  split at h
  · cases h
    exact ⟨"||=".toList, rfl⟩
  · cases h
    exact ⟨['='], rfl⟩
  · cases h

/-- So it is behind the name. -/
theorem isSuffix_name? {t name rest : Text} (h : name? t = some (name, rest)) : rest <:+ t := by
  unfold name? at h
  split at h
  · cases h
  · dsimp only at h
    split at h
    · cases h
      exact (List.dropWhile_suffix _).trans (List.suffix_cons _ _)
    · cases h

/-- A value runs on to the first line break behind it. -/
theorem runsOn_of_value? {t value : Text} (h : value? t = some value) : Text.RunsOn t value := by
  obtain ⟨⟨gap, rest⟩, hfound, rfl⟩ := Option.map_eq_some_iff.mp h
  obtain ⟨hcut, -⟩ := Text.find?_blankCuts hfound
  exact ⟨rest, ⟨gap, hcut⟩, rfl⟩

theorem placed_binding? {line : Text} {c : Construct Slot} (h : binding? line = some c) :
    c.Placed line := by
  obtain ⟨⟨name, behind⟩, hname, h⟩ := Option.bind_eq_some_iff.mp h
  obtain ⟨⟨guarded, rest⟩, hsign, h⟩ := Option.bind_eq_some_iff.mp h
  obtain ⟨value, hvalue, h⟩ := Option.bind_eq_some_iff.mp h
  cases h
  have hrest : rest <:+ line :=
    (isSuffix_sign? hsign).trans ((Text.isSuffix_trimStart _).trans (isSuffix_name? hname))
  refine ⟨?_, ?_, fun _ _ _ heq => nomatch heq⟩
  · intro part slot hslot hclosed
    cases List.mem_singleton.mp hslot
    cases hclosed
  · intro part slot hslot _
    cases List.mem_singleton.mp hslot
    exact ⟨(runsOn_of_value? hvalue).of_isSuffix hrest, rfl⟩

end Variable

/-- So does the test of an alternative. -/
theorem Alternative.runsOn_of_test? {value test : Text} (h : test? value = some test) :
    Text.RunsOn value test := by
  unfold test? at h
  split at h
  · rename_i t
    obtain ⟨⟨gap, rest⟩, hfound, rfl⟩ := Option.map_eq_some_iff.mp h
    obtain ⟨hcut, -⟩ := Text.find?_blankCuts hfound
    have hrest : rest <:+ t := ⟨gap, hcut⟩
    exact ⟨rest, hrest.trans ⟨['i', 'f'], rfl⟩, rfl⟩
  · cases h

/-! ## Lines -/

namespace Reading

/-- Where the expressions of a line stand in it. -/
def Placed (line : Text) : Reading → Prop
  | .construct c => c.Placed line
  | .definition _ parameters =>
    ∀ parameter, .ok parameter ∈ parameters → ∀ slot, parameter.defaultValue = some slot →
      slot.Placed line
  | .imports _ => True
  | .branch test => ∀ slot, test = some slot → slot.RunsOn line

variable {line : Line} {reading : Reading} {afterConditional : Bool}

theorem placed_rule (t selector : Text) : (rule selector).Placed t :=
  Construct.placed_of_parts rfl fun _ _ _ heq => nomatch heq

/-- The expressions that end before a line break are delimited. -/
theorem Placed.delimited {t : Text} {part : Part} {slot : Slot} (h : reading.Placed t)
    (hslot : .expression part slot ∈ reading.asks) (hpart : part.isOpen = false) : slot.Placed t := by
  -- defaults and the parts of a construct have their columns, and the test of an alternative is
  -- open
  match reading, h, hslot with
  | .construct c, h, hslot => exact Construct.Placed.delimited h part slot (mem_asksOf.mp hslot) hpart
  | .definition _ parameters, h, hslot =>
    obtain ⟨parameter, hparameter, hslot⟩ := List.mem_flatMap.mp hslot
    match parameter, hparameter, hslot with
    | .ok ⟨name, some slot'⟩, hparameter, hslot =>
      cases List.mem_singleton.mp hslot
      exact h _ hparameter slot rfl
  | .imports entries, _, hslot =>
    obtain ⟨entry, -, hslot⟩ := List.mem_flatMap.mp hslot
    cases entry with
    | css text => exact absurd hslot List.not_mem_nil
    | sheet name => cases List.mem_singleton.mp hslot
  | .branch (some test), _, hslot =>
    cases List.mem_singleton.mp hslot
    cases hpart

/-- The expressions that are open run on to a line break. -/
theorem Placed.runsOn {t : Text} {part : Part} {slot : Slot} (h : reading.Placed t)
    (hslot : .expression part slot ∈ reading.asks) (hpart : part.isOpen = true) : slot.RunsOn t := by
  match reading, h, hslot with
  | .construct c, h, hslot => exact Construct.Placed.runsOn h part slot (mem_asksOf.mp hslot) hpart
  | .definition _ parameters, _, hslot =>
    obtain ⟨parameter, -, hslot⟩ := List.mem_flatMap.mp hslot
    match parameter, hslot with
    | .ok ⟨name, some slot'⟩, hslot =>
      cases List.mem_singleton.mp hslot
      cases hpart
  | .imports entries, _, hslot =>
    obtain ⟨entry, -, hslot⟩ := List.mem_flatMap.mp hslot
    cases entry with
    | css text => exact absurd hslot List.not_mem_nil
    | sheet name => cases List.mem_singleton.mp hslot
  | .branch (some test), h, hslot =>
    cases List.mem_singleton.mp hslot
    exact h slot rfl

theorem placed_ofConstruct? {cause : Cause} {c? : Option (Construct Slot)}
    (h : ofConstruct? line cause c? = .ok reading) (hc : ∀ c, c? = some c → c.Placed line.text) :
    reading.Placed line.text := by
  unfold ofConstruct? at h
  split at h
  · cases h
    exact hc _ rfl
  · cases h

theorem placed_ofPlain (h : ofPlain line = .ok reading) : reading.Placed line.text := by
  unfold ofPlain at h
  split at h
  · exact placed_ofConstruct? h fun _ => Attribute.placed_inline?
  · cases h
    exact placed_rule _ _

theorem placed_ofAttribute (h : ofAttribute line = .ok reading) : reading.Placed line.text := by
  unfold ofAttribute at h
  split at h
  · cases h
    exact placed_rule _ _
  · exact placed_ofConstruct? h fun _ => Attribute.placed_prefixed?

theorem placed_ofBinding (h : ofBinding line = .ok reading) : reading.Placed line.text := by
  obtain ⟨_, -, h⟩ := bind_eq_ok.mp h
  exact placed_ofConstruct? h fun _ => Variable.placed_binding?

theorem placed_ofComment (h : ofComment line = .ok reading) : reading.Placed line.text := by
  unfold ofComment at h
  split at h
  · cases h
    exact Construct.placed_of_parts rfl fun _ _ _ heq => nomatch heq
  · cases h
    exact Construct.placed_of_parts rfl fun _ _ _ heq => nomatch heq
  · cases h
    exact placed_rule _ _

theorem placed_ofDefinition (h : ofDefinition line = .ok reading) : reading.Placed line.text := by
  unfold ofDefinition at h
  split at h
  · rename_i name entries hhead
    cases h
    intro parameter hparameter slot hslot
    obtain ⟨optional, entry, hentry, hread⟩ := Mixin.parameter_of_mem hparameter
    exact Mixin.placed_of_parameter (Mixin.placed_of_head? hhead entry hentry) hread.symm hslot
  · cases h

/-- The arguments of an include stand between its brackets. -/
theorem placed_ofInclude (h : ofInclude line = .ok reading) : reading.Placed line.text := by
  unfold ofInclude at h
  split at h
  · cases h
    exact placed_rule _ _
  · obtain ⟨_, -, h⟩ := bind_eq_ok.mp h
    split at h
    · cases h
    · rename_i name arguments hhead
      split at h
      · cases h
      · cases h
        refine ⟨?_, ?_, fun _ _ _ heq => nomatch heq⟩
        · intro part slot hslot _
          -- an argument is delimited by commas and the closing bracket
          obtain ⟨argument, hargument, heq⟩ := List.mem_map.mp hslot
          cases heq
          exact Mixin.placed_of_head? hhead slot hargument
        · intro part slot hslot hopen
          obtain ⟨argument, -, heq⟩ := List.mem_map.mp hslot
          cases heq
          cases hopen

/-! ### Directives -/

/-- A construct whose only expression is delimited. -/
theorem placed_single {t : Text} {c : Construct Slot} {part : Part} {slot : Slot}
    (hparts : c.parts = [(part, slot)]) (hpart : part.isOpen = false) (hslot : slot.Placed t)
    (h : ∀ name value form, c ≠ .attribute name value form) : c.Placed t := by
  refine ⟨?_, ?_, fun name text form heq => absurd heq (h name _ form)⟩
  · intro part' slot' hmem _
    rw [hparts] at hmem
    cases List.mem_singleton.mp hmem
    exact hslot
  · intro part' slot' hmem hopen
    rw [hparts] at hmem
    cases List.mem_singleton.mp hmem
    rw [hpart] at hopen
    cases hopen

/-- A directive that needs its value gives it with its column. -/
theorem value_of_required {directive : Directive} {slot : Slot}
    (h : required line directive = .ok slot) :
    directive.value = some slot.text ∧ slot.column = directive.column := by
  unfold required at h
  split at h
  · cases h
  · cases h
  · rename_i hvalue
    cases h
    exact ⟨hvalue, rfl⟩

theorem placed_of_required {slot : Slot} (hmark : line.text.head? = some '@')
    (h : required line (Directive.ofText line.text) = .ok slot) : slot.Placed line.text := by
  obtain ⟨hvalue, hcolumn⟩ := value_of_required h
  have hplaced := Directive.placed_of_value hmark hvalue
  rwa [← hcolumn] at hplaced

/-- The test of an alternative stands behind the second keyword. -/
theorem placed_ofAlternative (hmark : line.text.head? = some '@')
    (h : ofAlternative afterConditional line (Directive.ofText line.text) = .ok reading) :
    reading.Placed line.text := by
  unfold ofAlternative at h
  split at h
  · cases h
  · split at h
    · cases h
      exact fun _ heq => nomatch heq
    · cases h
      exact fun _ heq => nomatch heq
    · rename_i value _ hvalue
      split at h
      · cases h
      · -- the value ends the line and the test ends the value, so the column is what is left of the
        -- line
        rename_i test htest
        cases h
        intro slot heq
        cases heq
        obtain ⟨hsuffix, hcolumn, -⟩ := Directive.value_ofText hmark hvalue
        refine ⟨(Alternative.runsOn_of_test? htest).of_isSuffix hsuffix, ?_⟩
        show (Directive.ofText line.text).column + _ = Text.units line.text - Text.units test
        rw [hcolumn]
        omega

/-- Both bounds of a loop stand in its value. -/
theorem placed_ofLoop {c : Construct Slot} (hmark : line.text.head? = some '@')
    (h : Loop.read line.text (Directive.ofText line.text).column
      ((Directive.ofText line.text).value.getD []) = .ok c) : c.Placed line.text := by
  cases hvalue : (Directive.ofText line.text).value with
  | none =>
    rw [hvalue] at h
    cases h
  | some value =>
    rw [hvalue] at h
    have hparts := Loop.placed_of_read (Directive.placed_of_value hmark hvalue).occurs h
    unfold Loop.read at h
    split at h
    · cases h
    · split at h
      · cases h
        refine ⟨fun part slot hslot _ => hparts part slot hslot, ?_, fun _ _ _ heq => nomatch heq⟩
        intro part slot hslot hopen
        -- neither bound is open
        rcases List.mem_cons.mp hslot with heq | hslot
        · cases heq
          cases hopen
        · cases List.mem_singleton.mp hslot
          cases hopen
      · cases h

/-- Whatever keyword a line has, its expressions stand where they are said to. -/
theorem placed_ofDirective (hmark : line.text.head? = some '@')
    (h : ofDirective afterConditional line = .ok reading) : reading.Placed line.text := by
  unfold ofDirective at h
  dsimp only at h
  -- one case for each keyword, in the order of `ofDirective`
  split at h
  · cases h
    exact Construct.placed_of_parts rfl fun _ _ _ heq => nomatch heq
  · unfold ofImport at h
    split at h
    · cases h
    · cases h
    · obtain ⟨_, -, h⟩ := bind_eq_ok.mp h
      cases h
      trivial
  · exact placed_ofAlternative hmark h
  · split at h
    · rename_i hread
      cases h
      exact placed_ofLoop hmark hread
    · cases h
  · obtain ⟨test, htest, h⟩ := bind_eq_ok.mp h
    cases h
    exact placed_single rfl rfl (placed_of_required hmark htest) fun _ _ _ heq => nomatch heq
  · obtain ⟨test, htest, h⟩ := bind_eq_ok.mp h
    cases h
    exact placed_single rfl rfl (placed_of_required hmark htest) fun _ _ _ heq => nomatch heq
  · obtain ⟨value, hvalue, h⟩ := bind_eq_ok.mp h
    obtain ⟨_, -, h⟩ := bind_eq_ok.mp h
    cases h
    exact placed_single rfl rfl (placed_of_required hmark hvalue) fun _ _ _ heq => nomatch heq

/-- The expressions of a line stand where they are said to. -/
theorem placed_of_ofLine (h : ofLine afterConditional line = .ok reading) :
    reading.Placed line.text := by
  unfold ofLine at h
  split at h
  · rename_i mark hmark
    obtain ⟨c, hhead, hc⟩ := Option.bind_eq_some_iff.mp hmark
    have hchar := char_of_ofChar? hc
    -- one lemma for each mark, as lines are read by their marks
    match mark, hchar, h with
    | .binding, _, h => exact placed_ofBinding h
    | .mixinInclude, _, h => exact placed_ofInclude h
    | .comment, _, h => exact placed_ofComment h
    | .attribute, _, h => exact placed_ofAttribute h
    | .definition, _, h => exact placed_ofDefinition h
    | .directive, hchar, h =>
      -- only a directive needs its mark in front, because its column is counted from there
      refine placed_ofDirective ?_ h
      rw [hhead, ← hchar]
      rfl
    | .escape, _, h =>
      cases h
      exact placed_rule _ _
  · exact placed_ofPlain h

end Reading

end Stylesheet
