import Stylesheet.Proofs.Json.Scalars

/-!
# The order of the fields of an object

An object lists the fields whose names are places in front of its other fields. All fields stay, and
fields whose names are no places keep the order in which they were put in.

- `Json.perm_enter`, `Json.pairwise_enter`, `Json.filter_enter`: a field that is put in finds its
  position.
- `Json.Lists`, `Json.lists_arranged`: the order of all fields, by induction on them.
- `Json.arranged_eq_self`: without places the order is that in which the fields were put in.
- `Json.arranged_map`: the values have no part in it.
-/

namespace Stylesheet.Json

variable {α β : Type} {name other third : Text} {fields : List (Text × α)}

/-! ## Places -/

/-- A place is written with digits only. -/
theorem all_isDigit_of_place? {n : Nat} (h : place? name = some n) :
    name.all Char.isDigit = true := by
  unfold place? at h
  dsimp only at h
  split at h
  · rename_i hname
    rw [← hname.2]
    exact all_isDigit_toDigits _
  · cases h

/-- An absolute path is no place. -/
theorem place?_eq_none (h : name.head? = some '/') : place? name = none := by
  cases hplace : place? name with
  | none => rfl
  | some n =>
    have hdigit := List.all_eq_true.mp (all_isDigit_of_place? hplace) '/' (List.mem_of_head? h)
    exact absurd hdigit (by decide)

/-- Whether the name of a field is no place. -/
def isNamed (field : Text × α) : Bool := (place? field.1).isNone

theorem isNamed_iff {field : Text × α} : isNamed field = true ↔ place? field.1 = none :=
  Option.isNone_iff_eq_none

/-! ## Precedence -/

theorem precedes_iff :
    precedes name other = true ↔
      ∃ n, place? name = some n ∧ ∀ m, place? other = some m → n < m := by
  unfold precedes
  cases place? name <;> cases place? other <;> simp

theorem precedes_asymm (h : precedes name other = true) : precedes other name = false := by
  refine Bool.eq_false_iff.mpr fun h' => ?_
  obtain ⟨n, hname, hlow⟩ := precedes_iff.mp h
  obtain ⟨m, hother, hhigh⟩ := precedes_iff.mp h'
  exact Nat.lt_asymm (hlow m hother) (hhigh n hname)

/-- What precedes a field precedes all others that do not precede this field. -/
theorem precedes_of_not_precedes (h : precedes name third = true)
    (hother : precedes other third = false) : precedes name other = true := by
  obtain ⟨n, hname, hlow⟩ := precedes_iff.mp h
  refine precedes_iff.mpr ⟨n, hname, fun m hm => Nat.lt_of_not_le fun hle => ?_⟩
  -- otherwise the other one would precede the third as well
  have hprecedes : precedes other third = true :=
    precedes_iff.mpr ⟨m, hm, fun k hk => Nat.lt_of_le_of_lt hle (hlow k hk)⟩
  rw [hother] at hprecedes
  cases hprecedes

/-! ## Entering a field -/

theorem perm_enter (field : Text × α) (fields : List (Text × α)) :
    (enter field fields).Perm (field :: fields) := by
  induction fields with
  | nil => exact .refl _
  | cons first rest ih =>
    rw [enter]
    split
    · exact (ih.cons first).trans (.swap field first rest)
    · exact .refl _

/-- Among fields in order a field finds a position that keeps them so. -/
theorem pairwise_enter (field : Text × α)
    (h : fields.Pairwise fun upper lower => precedes lower.1 upper.1 = false) :
    (enter field fields).Pairwise fun upper lower => precedes lower.1 upper.1 = false := by
  induction fields with
  | nil => exact List.pairwise_singleton _ _
  | cons first rest ih =>
    obtain ⟨hfirst, hrest⟩ := List.pairwise_cons.mp h
    rw [enter]
    split
    · rename_i hprecedes
      refine List.pairwise_cons.mpr ⟨fun other hother => ?_, ih hrest⟩
      rcases List.mem_cons.mp ((perm_enter field rest).mem_iff.mp hother) with rfl | hother
      · exact precedes_asymm hprecedes
      · exact hfirst other hother
    · rename_i hprecedes
      have hprecedes := Bool.eq_false_iff.mpr hprecedes
      refine List.pairwise_cons.mpr ⟨List.forall_mem_cons.mpr ⟨hprecedes, fun other hother => ?_⟩, h⟩
      -- what preceded the field would precede the first one, too
      refine Bool.eq_false_iff.mpr fun hother' => ?_
      have hcontra := precedes_of_not_precedes hother' hprecedes
      rw [hfirst other hother] at hcontra
      cases hcontra

/-- Places that are put in or passed by leave the order of the other fields as it is. -/
theorem filter_enter (field : Text × α) (fields : List (Text × α)) :
    (enter field fields).filter isNamed = (field :: fields).filter isNamed := by
  induction fields with
  | nil => rfl
  | cons first rest ih =>
    rw [enter]
    split
    · rename_i hprecedes
      obtain ⟨n, hplace, -⟩ := precedes_iff.mp hprecedes
      have hfirst : ¬isNamed first = true := by
        rw [isNamed_iff, hplace]
        exact Option.some_ne_none n
      rw [List.filter_cons_of_neg hfirst, ih, List.filter_cons, List.filter_cons,
        List.filter_cons_of_neg hfirst]
    · rfl

theorem enter_map (g : α → β) (field : Text × α) (fields : List (Text × α)) :
    enter (field.1, g field.2) (fields.map fun other => (other.1, g other.2)) =
      (enter field fields).map fun other => (other.1, g other.2) := by
  induction fields with
  | nil => rfl
  | cons first rest ih =>
    rw [List.map_cons, enter, enter]
    split
    · rw [ih, List.map_cons]
    · rfl

/-! ## Arranging all fields -/

/-- No field is lost and none is doubled. -/
theorem perm_arranged (fields : List (Text × α)) : (arranged fields).Perm fields := by
  induction fields with
  | nil => exact .refl _
  | cons field rest ih => exact (perm_enter field (arranged rest)).trans (ih.cons field)

/-- No field stands behind one that it precedes. -/
theorem pairwise_arranged (fields : List (Text × α)) :
    (arranged fields).Pairwise fun upper lower => precedes lower.1 upper.1 = false := by
  induction fields with
  | nil => exact .nil
  | cons field rest ih => exact pairwise_enter field ih

/-- Fields that are no places keep their order. -/
theorem filter_arranged (fields : List (Text × α)) :
    (arranged fields).filter isNamed = fields.filter isNamed := by
  induction fields with
  | nil => rfl
  | cons field rest ih =>
    show (enter field (arranged rest)).filter _ = _
    rw [filter_enter, List.filter_cons, List.filter_cons, ih]

/-- The order in which an object lists fields that are put into it one after another: all of them,
no field behind one that it precedes, and those that are no places as they were put in. -/
structure Lists (fields listed : List (Text × α)) : Prop where
  perm : listed.Perm fields
  ordered : listed.Pairwise fun upper lower => precedes lower.1 upper.1 = false
  named : listed.filter isNamed = fields.filter isNamed

theorem lists_arranged (fields : List (Text × α)) : Lists fields (arranged fields) :=
  ⟨perm_arranged fields, pairwise_arranged fields, filter_arranged fields⟩

/-- Without places all fields keep their order. -/
theorem arranged_eq_self (h : ∀ field ∈ fields, place? field.1 = none) : arranged fields = fields := by
  have hnamed : ∀ field ∈ fields, isNamed field = true :=
    fun field hfield => isNamed_iff.mpr (h field hfield)
  have hall : ∀ field ∈ arranged fields, isNamed field = true :=
    fun field hfield => hnamed field ((perm_arranged fields).mem_iff.mp hfield)
  rw [← List.filter_eq_self.mpr hall, filter_arranged, List.filter_eq_self.mpr hnamed]

/-- An object of two places and two other names. -/
example : arranged [("b", 1), ("10", 2), ("a", 3), ("9", 4)] =
    ([("9", 4), ("10", 2), ("b", 1), ("a", 3)] : List (Text × Nat)) := by
  decide +kernel

/-- Fields are arranged by their names alone. -/
theorem arranged_map (g : α → β) (fields : List (Text × α)) :
    arranged (fields.map fun field => (field.1, g field.2)) =
      (arranged fields).map fun field => (field.1, g field.2) := by
  induction fields with
  | nil => rfl
  | cons field rest ih =>
    show enter (field.1, g field.2) (arranged (rest.map _)) = _
    rw [ih, enter_map]
    rfl

end Stylesheet.Json
