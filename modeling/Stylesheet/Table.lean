/-!
# Tables in order of insertion

The cache, the noted imports and the import graph (`stylesheetCache`, `importDeps`, the result of
`loadImportGraph`) are such tables: what is read from them depends on the order of their keys.

- `Table κ α`: a finite map from keys to values that lists its entries in the order in which their
  keys came in. No key occurs twice (`Table.nodup_keys`).
- `Table.insert`: gives a key a value. A key that is there keeps its position, a new one goes to the
  end (`keys_insert`); only this key's value changes (`get?_insert`).
- `Table.erase`: takes a key out, so that inserting it again puts it at the end (`get?_erase`).
-/

namespace Stylesheet

/-- A finite map whose entries stand in the order in which their keys came in. -/
structure Table (κ : Type) (α : Type) where
  entries : List (κ × α)
  nodup_keys : (entries.map Prod.fst).Nodup := by simp

namespace Table

variable {κ α : Type}

/-- The table without entries. -/
def empty : Table κ α := ⟨[], by simp⟩

instance : Inhabited (Table κ α) := ⟨empty⟩

/-- The keys, in the order of the entries. -/
def keys (t : Table κ α) : List κ := t.entries.map Prod.fst

variable [DecidableEq κ]

/-! ## Reading -/

/-- The value of a key in a list of entries. -/
def find? (key : κ) : List (κ × α) → Option α
  | [] => none
  | (k, a) :: entries => if k = key then some a else find? key entries

/-- The value of a key. -/
def get? (t : Table κ α) (key : κ) : Option α := find? key t.entries

/-- Whether a key has a value. -/
def contains (t : Table κ α) (key : κ) : Bool := (t.get? key).isSome

theorem find?_isSome_iff {key : κ} {entries : List (κ × α)} :
    (find? key entries).isSome ↔ key ∈ entries.map Prod.fst := by
  induction entries with
  | nil => simp [find?]
  | cons entry entries ih =>
    by_cases h : entry.1 = key
    · simp [find?, h]
    · have h' : ¬key = entry.1 := fun e => h e.symm
      simp [find?, h, h', ih]

theorem contains_iff_mem_keys {t : Table κ α} {key : κ} : t.contains key ↔ key ∈ t.keys :=
  find?_isSome_iff

theorem not_mem_keys_of_contains {t : Table κ α} {key : κ} (h : t.contains key = false) :
    key ∉ t.keys := by
  rw [← contains_iff_mem_keys, h]
  exact Bool.false_ne_true

theorem mem_keys_of_get? {t : Table κ α} {key : κ} {a : α} (h : t.get? key = some a) :
    key ∈ t.keys := by
  rw [← contains_iff_mem_keys, contains, h]
  rfl

theorem exists_get?_of_mem_keys {t : Table κ α} {key : κ} (h : key ∈ t.keys) :
    ∃ a, t.get? key = some a :=
  Option.isSome_iff_exists.mp (contains_iff_mem_keys.mpr h)

theorem get?_eq_none_of_not_mem_keys {t : Table κ α} {key : κ} (h : key ∉ t.keys) :
    t.get? key = none := by
  rw [← contains_iff_mem_keys] at h
  exact Option.not_isSome_iff_eq_none.mp h

/-! ## Inserting -/

/-- Entries in which a key has a new value, at its old position or else at the end. -/
def upsert (key : κ) (a : α) : List (κ × α) → List (κ × α)
  | [] => [(key, a)]
  -- A key that is there keeps its place: only its value is new.
  | (k, b) :: entries => if k = key then (k, a) :: entries else (k, b) :: upsert key a entries

theorem map_fst_upsert (key : κ) (a : α) (entries : List (κ × α)) :
    (upsert key a entries).map Prod.fst =
      if key ∈ entries.map Prod.fst then entries.map Prod.fst else entries.map Prod.fst ++ [key] := by
  induction entries with
  | nil => simp [upsert]
  | cons entry entries ih =>
    by_cases h : entry.1 = key
    · simp [upsert, h]
    · have h' : ¬key = entry.1 := fun e => h e.symm
      simp only [upsert, if_neg h, List.map_cons, ih, List.mem_cons, h', false_or]
      split <;> simp

/-- The table in which `key` has the value `a`. -/
def insert (t : Table κ α) (key : κ) (a : α) : Table κ α where
  entries := upsert key a t.entries
  nodup_keys := by
    rw [map_fst_upsert]
    split
    · exact t.nodup_keys
    · rename_i h
      rw [List.nodup_append]
      refine ⟨t.nodup_keys, by simp, fun k hk k' hk' => ?_⟩
      rw [List.mem_singleton] at hk'
      subst hk'
      exact fun e => h (e ▸ hk)

theorem keys_insert (t : Table κ α) (key : κ) (a : α) :
    (t.insert key a).keys = if key ∈ t.keys then t.keys else t.keys ++ [key] :=
  map_fst_upsert key a t.entries

theorem get?_insert (t : Table κ α) (key k : κ) (a : α) :
    (t.insert key a).get? k = if key = k then some a else t.get? k := by
  show find? k (upsert key a t.entries) = if key = k then some a else find? k t.entries
  generalize t.entries = entries
  induction entries with
  | nil => by_cases h : key = k <;> simp [upsert, find?, h]
  | cons entry entries ih =>
    by_cases h : entry.1 = key
    · by_cases hk : key = k <;> simp [upsert, find?, h, hk]
    · by_cases hk : entry.1 = k
      · have : ¬key = k := fun e => h (hk.trans e.symm)
        rw [upsert, if_neg h]
        simp [find?, hk, this]
      · simp [upsert, find?, h, hk, ih]

/-! ## Taking out -/

/-- The table without `key`. -/
def erase (t : Table κ α) (key : κ) : Table κ α where
  entries := t.entries.filter (fun entry => entry.1 ≠ key)
  nodup_keys := by
    have h := t.nodup_keys
    exact h.sublist (List.filter_sublist.map Prod.fst)

theorem get?_erase (t : Table κ α) (key k : κ) :
    (t.erase key).get? k = if key = k then none else t.get? k := by
  show find? k (t.entries.filter _) = if key = k then none else find? k t.entries
  generalize t.entries = entries
  induction entries with
  | nil => simp [find?]
  | cons entry entries ih =>
    by_cases h : entry.1 = key
    · simp only [ne_eq, h, not_true_eq_false, decide_false, Bool.false_eq_true,
        not_false_eq_true, List.filter_cons_of_neg]
      rw [ih]
      by_cases hk : key = k <;> simp [find?, h, hk]
    · simp only [ne_eq, h, not_false_eq_true, decide_true, List.filter_cons_of_pos]
      by_cases hk : entry.1 = k
      · have : ¬key = k := fun e => h (hk.trans e.symm)
        simp [find?, hk, this]
      · simp only [find?, hk, if_false]
        exact ih

end Table

end Stylesheet
