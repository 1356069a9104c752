import Stylesheet.Construct.Mixin
import Stylesheet.Proofs.Text.Slices

/-!
# Parameters of a mixin

An entry of a definition is a variable, or a variable with a default behind the first equals sign.

- `Mixin.Declares`: an entry is written as a parameter.
- `Mixin.Names`: what stands where the name of an entry should.
- `Mixin.Misses`: what is wrong with the text of an entry that is no parameter, or not in its place.
- `Mixin.parameter_eq_ok_iff`, `Mixin.parameter_eq_error_iff`: an entry is read as it is written.
-/

namespace Stylesheet

namespace Variable

theorem isWord_of_isName {name : Text} (h : isName name = true) {c : Char} (hc : c ∈ name) :
    Text.isWord c = true := by
  cases name with
  | nil => exact absurd hc List.not_mem_nil
  | cons first rest =>
    obtain ⟨hfirst, hrest⟩ := Bool.and_eq_true_iff.mp h
    rcases List.mem_cons.mp hc with rfl | hc
    · simp [Text.isWord, hfirst]
    · exact List.all_eq_true.mp hrest c hc

/-- A reference is a name with the mark in front. -/
theorem isReference_iff {t : Text} : isReference t = true ↔
    ∃ name, t = mark :: name ∧ isName name = true := by
  cases t with
  | nil => simp [isReference]
  | cons c t => simp [isReference, Bool.and_eq_true]

end Variable

namespace Mixin

open Text

variable {t name value front behind gap : Text} {entry : Slot} {declared : Parameter Slot}
  {optional : Bool} {cause : Cause} {column : Int}

/-! ## How an entry is written -/

/-- An equals sign stands in an entry, so that it has a default. -/
def HasDefault (entry : Slot) : Prop := '=' ∈ entry.text

/-- An entry is written as a parameter: its name behind the mark, and behind an equals sign its
default, if it has one. Blanks around the sign do not count. -/
inductive Declares : Slot → Parameter Slot → Prop where
  | required {name : Text} {column : Int} (hname : Variable.isName name = true) :
    Declares ⟨Variable.mark :: name, column⟩ ⟨name, none⟩
  | optional {name gap gap' value : Text} {column : Int} (hname : Variable.isName name = true)
    (hgap : gap.all isBlank = true) (hgap' : gap'.all isBlank = true)
    (hvalue : startsBlank value = false) :
    Declares ⟨Variable.mark :: (name ++ gap ++ '=' :: (gap' ++ value)), column⟩
      ⟨name, some ⟨value, column + units (Variable.mark :: (name ++ gap ++ '=' :: gap'))⟩⟩

/-- What stands where the name of an entry should: the whole text, or what is in front of the first
equals sign, without the blanks between. -/
inductive Names : Text → Text → Prop where
  | whole {t : Text} (hsign : '=' ∉ t) : Names t t
  | front {name gap behind : Text} (hsign : '=' ∉ name)
    (hend : ∀ c ∈ name.getLast?, isBlank c = false) (hgap : gap.all isBlank = true) :
    Names (name ++ gap ++ '=' :: behind) name

/-- What is wrong with the text of an entry. A parameter without a default is wrong only where the
entries in front of it ask for one. -/
inductive Misses (optional : Prop) : Text → Cause → Prop where
  | empty : Misses optional [] .emptyArgument
  | nameless : Misses optional [Variable.mark] .emptyArgument
  | unmarked {t : Text} (hne : t ≠ []) (hmark : t.head? ≠ some Variable.mark) :
    Misses optional t (.unmarkedParameter t)
  | misnamed {t name : Text} (hne : t ≠ [Variable.mark]) (hmark : t.head? = some Variable.mark)
    (hnames : Names t name) (hname : Variable.isReference name = false) :
    Misses optional t (.invalidVariable name)
  | required {name : Text} (hname : Variable.isName name = true) (hoptional : optional) :
    Misses optional (Variable.mark :: name) (.requiredAfterOptional (Variable.mark :: name))

/-! ## Names -/

/-- No equals sign stands in a name. -/
theorem sign_not_mem_of_isName (h : Variable.isName name = true) : '=' ∉ name :=
  fun hmem => absurd (Variable.isWord_of_isName h hmem) (by decide)

theorem sign_not_mem_reference (h : Variable.isName name = true) : '=' ∉ Variable.mark :: name :=
  List.not_mem_cons_of_ne_of_not_mem (by decide) (sign_not_mem_of_isName h)

theorem sign_not_mem_of_isBlank (h : gap.all isBlank = true) : '=' ∉ gap :=
  fun hmem => absurd (List.all_eq_true.mp h _ hmem) (by decide)

/-- A name behind the mark does not end in a blank. -/
theorem getLast?_reference (h : Variable.isName name = true) {c : Char}
    (hc : c ∈ (Variable.mark :: name).getLast?) : isBlank c = false := by
  rcases List.mem_cons.mp (List.mem_of_mem_getLast? hc) with rfl | hmem
  · decide
  · exact isBlank_eq_false_of_isWord (Variable.isWord_of_isName h hmem)

/-! ## The default -/

/-- Without an equals sign there is no default. -/
theorem splitDefault_of_not_mem (h : '=' ∉ t) : splitDefault t = (t, none) := by
  have hnil : t.dropWhile (· != '=') = [] := by
    rw [List.dropWhile_eq_nil_iff]
    intro c hc
    simpa using fun heq : c = '=' => h (heq ▸ hc)
  unfold splitDefault
  rw [hnil]

/-- The first equals sign separates the name from the default, without the blanks around it. -/
theorem splitDefault_append (h : '=' ∉ front) (behind : Text) :
    splitDefault (front ++ '=' :: behind) = (trimEnd front, some (trimStart behind)) := by
  have hfront : ∀ c ∈ front, (c != '=') = true := by
    intro c hc
    simpa using fun heq : c = '=' => h (heq ▸ hc)
  have hdrop : (front ++ '=' :: behind).dropWhile (· != '=') = '=' :: behind := by
    rw [List.dropWhile_append_of_pos hfront]
    rfl
  have htake : (front ++ '=' :: behind).takeWhile (· != '=') = front := by
    rw [List.takeWhile_append_of_pos hfront]
    exact List.append_nil front
  unfold splitDefault
  rw [hdrop, htake]

/-- The name of an entry is what stands in its place. -/
theorem names_iff : Names t name ↔ (splitDefault t).1 = name := by
  constructor
  · rintro (hsign | ⟨hsign, hend, hgap⟩)
    · rw [splitDefault_of_not_mem hsign]
    · have hfront := List.not_mem_append hsign (sign_not_mem_of_isBlank hgap)
      rw [splitDefault_append hfront, trimEnd_append hgap, trimEnd_eq_self hend]
  · rintro rfl
    by_cases hsign : '=' ∈ t
    · obtain ⟨front, behind, rfl, hfront⟩ := List.eq_append_cons_of_mem hsign
      obtain ⟨gap, hgap, hsplit⟩ := trimEnd_split front
      rw [splitDefault_append hfront]
      have hnames : Names (trimEnd front ++ gap ++ '=' :: behind) (trimEnd front) :=
        .front (fun hmem => hfront (hsplit ▸ List.mem_append_left _ hmem))
          (fun c hc => isBlank_getLast?_trimEnd hc) hgap
      rwa [hsplit] at hnames
    · rw [splitDefault_of_not_mem hsign]
      exact .whole hsign

/-- An entry has a default just if an equals sign stands in it. -/
theorem hasDefault_iff : HasDefault entry ↔ (splitDefault entry.text).2.isSome = true := by
  unfold HasDefault
  by_cases hsign : '=' ∈ entry.text
  · obtain ⟨front, behind, heq, hfront⟩ := List.eq_append_cons_of_mem hsign
    rw [heq, splitDefault_append hfront]
    simp
  · rw [splitDefault_of_not_mem hsign]
    simp [hsign]

theorem Declares.hasDefault_iff (h : Declares entry declared) :
    HasDefault entry ↔ declared.defaultValue.isSome = true := by
  cases h with
  | required hname =>
    simpa [HasDefault] using sign_not_mem_reference hname
  | optional => simp [HasDefault]

/-! ## Reading an entry -/

/-- An entry that is written as a parameter is read as this parameter, in its place. -/
theorem Declares.parameter_eq (h : Declares entry declared)
    (hplace : optional = true → HasDefault entry) : parameter optional entry = .ok declared := by
  cases h with
  | @required name column hname =>
    have hsign := sign_not_mem_reference hname
    have hrequired : optional = false := by
      cases optional with
      | false => rfl
      | true => exact absurd (hplace rfl) hsign
    have hne : name ≠ [] := by
      rintro rfl
      cases hname
    have hreference := Variable.isReference_iff.mpr ⟨name, rfl, hname⟩
    unfold parameter
    dsimp only
    rw [splitDefault_of_not_mem hsign]
    simp [hreference, hrequired, hne]
  | @optional name gap gap' value column hname hgap hgap' hvalue =>
    have hsign : '=' ∉ Variable.mark :: name ++ gap :=
      List.not_mem_append (sign_not_mem_reference hname) (sign_not_mem_of_isBlank hgap)
    -- neither the name nor the blanks behind it hold an equals sign, so the first one is the
    -- written one
    have hsplit : splitDefault (Variable.mark :: (name ++ gap ++ '=' :: (gap' ++ value))) =
        (Variable.mark :: name, some value) := by
      have hfirst := splitDefault_append hsign (gap' ++ value)
      have hend : trimStart (gap' ++ value) = value := by
        rw [trimStart, List.dropWhile_append_of_pos (List.all_eq_true.mp hgap')]
        exact trimStart_eq_self hvalue
      rwa [trimEnd_append hgap, trimEnd_eq_self fun c => getLast?_reference hname, hend] at hfirst
    have hreference := Variable.isReference_iff.mpr ⟨name, rfl, hname⟩
    -- the column of the default is counted from the end of the entry
    have hcolumn : (units (Variable.mark :: (name ++ gap ++ '=' :: (gap' ++ value))) : Int) - units value =
        units (Variable.mark :: (name ++ gap ++ '=' :: gap')) := by
      simp only [units_cons, units_append]
      omega
    unfold parameter
    rw [hsplit]
    dsimp only
    rw [Option.map_some, hcolumn]
    simp [hreference]

/-- An entry with something wrong in it is not read. -/
theorem Misses.parameter_eq (h : Misses (optional = true) entry.text cause) :
    parameter optional entry = .error cause := by
  obtain ⟨t, column⟩ := entry
  dsimp only at h
  unfold parameter
  dsimp only
  -- one case for each test of the definition; those in front of it have to come out right
  cases h with
  | empty => simp
  | nameless => simp
  | unmarked hne hmark =>
    have hother : t ≠ [Variable.mark] := by
      rintro rfl
      exact hmark rfl
    simp [hne, hother, hmark]
  | @misnamed _ name hne hmark hnames hname =>
    have hcons : t ≠ [] := by
      rintro rfl
      cases hmark
    rw [names_iff.mp hnames]
    simp [hcons, hne, hmark, hname]
  | @required name hname hoptional =>
    have hsign := sign_not_mem_reference hname
    have hne : name ≠ [] := by
      rintro rfl
      cases hname
    have hreference := Variable.isReference_iff.mpr ⟨name, rfl, hname⟩
    rw [splitDefault_of_not_mem hsign]
    simp [hreference, hoptional, hne]

/-- An entry is written as a parameter in its place, or something is wrong with it. -/
theorem declares_or_misses (optional : Bool) (entry : Slot) :
    (∃ declared, Declares entry declared ∧ (optional = true → HasDefault entry)) ∨
      ∃ cause, Misses (optional = true) entry.text cause := by
  obtain ⟨t, column⟩ := entry
  -- the tests in the order of the definition: empty, without the mark, nothing but the mark,
  -- misnamed
  by_cases hnil : t = []
  · rw [hnil]
    exact .inr ⟨_, .empty⟩
  by_cases hmark : t.head? = some Variable.mark
  case neg => exact .inr ⟨_, .unmarked hnil hmark⟩
  by_cases hnameless : t = [Variable.mark]
  · rw [hnameless]
    exact .inr ⟨_, .nameless⟩
  cases hreference : Variable.isReference (splitDefault t).1 with
  | false => exact .inr ⟨_, .misnamed hnameless hmark (names_iff.mpr rfl) hreference⟩
  | true =>
    obtain ⟨name, heq, hname⟩ := Variable.isReference_iff.mp hreference
    by_cases hsign : '=' ∈ t
    · obtain ⟨front, behind, rfl, hfront⟩ := List.eq_append_cons_of_mem hsign
      obtain ⟨gap, hgap, hsplit⟩ := trimEnd_split front
      rw [splitDefault_append hfront] at heq
      have heq : trimEnd front = Variable.mark :: name := heq
      have hbehind := leadingBlanks_append_trimStart behind
      have hdeclares := @Declares.optional name gap (leadingBlanks behind) (trimStart behind) column
        hname hgap (all_leadingBlanks behind) (startsBlank_trimStart behind)
      rw [hbehind, ← List.cons_append, ← List.cons_append, ← heq, hsplit] at hdeclares
      exact .inl ⟨_, hdeclares, fun _ => hsign⟩
    · rw [splitDefault_of_not_mem hsign] at heq
      have heq : t = Variable.mark :: name := heq
      rw [heq]
      cases optional with
      | false => exact .inl ⟨_, .required hname, nofun⟩
      | true => exact .inr ⟨_, .required hname rfl⟩

/-- An entry is read as a parameter just if it is written as one, in its place. -/
theorem parameter_eq_ok_iff : parameter optional entry = .ok declared ↔
    Declares entry declared ∧ (optional = true → HasDefault entry) := by
  constructor
  · intro h
    rcases declares_or_misses optional entry with ⟨other, hdeclares, hplace⟩ | ⟨cause, hmisses⟩
    · cases h.symm.trans (hdeclares.parameter_eq hplace)
      exact ⟨hdeclares, hplace⟩
    · cases h.symm.trans hmisses.parameter_eq
  · rintro ⟨hdeclares, hplace⟩
    exact hdeclares.parameter_eq hplace

/-- An entry is not read just if something is wrong with it, and that is what is said. -/
theorem parameter_eq_error_iff : parameter optional entry = .error cause ↔
    Misses (optional = true) entry.text cause := by
  constructor
  · intro h
    rcases declares_or_misses optional entry with ⟨other, hdeclares, hplace⟩ | ⟨cause', hmisses⟩
    · cases h.symm.trans (hdeclares.parameter_eq hplace)
    · cases h.symm.trans hmisses.parameter_eq
      exact hmisses
  · exact Misses.parameter_eq

end Mixin

end Stylesheet
