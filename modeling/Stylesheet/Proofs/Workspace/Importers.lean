import Stylesheet.Proofs.Workspace.Preorder
import Stylesheet.Workspace.Dependents

/-!
# The dependents of a stylesheet

- `Workspace.noted`: the paths that are noted for a stylesheet as its imports.
- `mem_importers`: the direct importers that one step of the search finds.
- `searched_dependentsFrom`, `reaches_of_mem_dependentsFrom`: the search finds the direct importers
  of all that it finds, and all of these lead to the start.
- `mem_dependents_iff`: the dependents of a stylesheet are the others from which it can be reached.
-/

namespace Stylesheet.Workspace

variable {fs : FileSystem} {workspace : Workspace} {start provider consumer path : Text}
  {found pending : List Text}

/-- The paths that are noted for a stylesheet as its imports. -/
def noted (workspace : Workspace) (path : Text) : List Text :=
  (workspace.imports.get? path).getD []

theorem mem_keys_of_noted (h : provider ∈ workspace.noted consumer) :
    consumer ∈ workspace.imports.keys := by
  unfold noted at h
  cases hget : workspace.imports.get? consumer with
  | none =>
    rw [hget] at h
    exact absurd h List.not_mem_nil
  | some _ => exact Table.mem_keys_of_get? hget

theorem mem_importers :
    consumer ∈ workspace.importers start found provider ↔
      provider ∈ workspace.noted consumer ∧ consumer ∉ found ∧ consumer ≠ start := by
  unfold importers noted
  simp only [List.mem_filter, Bool.and_eq_true, Bool.not_eq_true', List.contains_eq_mem,
    decide_eq_true_eq, decide_eq_false_iff_not, bne_iff_ne]
  constructor
  · rintro ⟨-, ⟨hfound, hstart⟩, himport⟩
    exact ⟨himport, hfound, hstart⟩
  · rintro ⟨himport, hfound, hstart⟩
    exact ⟨mem_keys_of_noted himport, ⟨hfound, hstart⟩, himport⟩

/-! ## The search -/

/-- The direct importers of the start and of all that has been found are found, but for the start,
and but for those of what is pending. -/
def Searched (workspace : Workspace) (start : Text) (found pending : List Text) : Prop :=
  ∀ path, path = start ∨ path ∈ found → path ∈ pending ∨
    ∀ consumer, path ∈ workspace.noted consumer → consumer = start ∨ consumer ∈ found

/-- One step of the search preserves this. -/
theorem Searched.step (h : workspace.Searched start found (provider :: pending)) :
    workspace.Searched start (found ++ workspace.importers start found provider)
      ((workspace.importers start found provider).reverse ++ pending) := by
  intro path hpath
  have hold : path = start ∨ path ∈ found →
      path ∈ (workspace.importers start found provider).reverse ++ pending ∨
        ∀ consumer, path ∈ workspace.noted consumer →
          consumer = start ∨ consumer ∈ found ++ workspace.importers start found provider := by
    intro hpath
    rcases h path hpath with hpending | hfound
    · rcases List.mem_cons.mp hpending with rfl | hpending
      · refine .inr fun consumer himport => ?_
        by_cases hstart : consumer = start
        · exact .inl hstart
        by_cases hfound : consumer ∈ found
        · exact .inr (List.mem_append_left _ hfound)
        exact .inr (List.mem_append_right _ (mem_importers.mpr ⟨himport, hfound, hstart⟩))
      · exact .inl (List.mem_append_right _ hpending)
    · refine .inr fun consumer himport => ?_
      rcases hfound consumer himport with hstart | hfound
      · exact .inl hstart
      · exact .inr (List.mem_append_left _ hfound)
  rcases hpath with hstart | hpath
  · exact hold (.inl hstart)
  · rcases List.mem_append.mp hpath with hfound | hnew
    · exact hold (.inr hfound)
    · exact .inl (List.mem_append_left _ (List.mem_reverse.mpr hnew))

/-- In the end nothing is pending, so all direct importers are found. -/
theorem searched_dependentsFrom (h : workspace.Searched start found pending) :
    workspace.Searched start (workspace.dependentsFrom start found pending) [] := by
  fun_induction dependentsFrom workspace start found pending with
  | case1 found => exact h
  | case2 found provider pending consumers ih => exact ih h.step

/-- All that is found is not the start, and leads to what was pending. -/
theorem reaches_of_mem_dependentsFrom
    (h : consumer ∈ workspace.dependentsFrom start found pending) :
    consumer ∈ found ∨
      consumer ≠ start ∧ ∃ provider ∈ pending, Reaches workspace.noted consumer provider := by
  fun_induction dependentsFrom workspace start found pending with
  | case1 found => exact .inl h
  | case2 found provider pending consumers ih =>
    rcases ih h with hfound | ⟨hstart, other, hother, hreaches⟩
    · rcases List.mem_append.mp hfound with hfound | hnew
      · exact .inl hfound
      · obtain ⟨himport, -, hstart⟩ := mem_importers.mp hnew
        exact .inr ⟨hstart, provider, List.mem_cons_self, .single himport⟩
    · refine .inr ⟨hstart, ?_⟩
      rcases List.mem_append.mp hother with hnew | hother
      · obtain ⟨himport, -, -⟩ := mem_importers.mp (List.mem_reverse.mp hnew)
        exact ⟨provider, List.mem_cons_self, hreaches.tail himport⟩
      · exact ⟨other, List.mem_cons_of_mem _ hother, hreaches⟩

/-- The dependents of a stylesheet are the others from which it can be reached. -/
theorem mem_dependents_iff :
    consumer ∈ workspace.dependents fs path ↔
      consumer ≠ fs.resolve path ∧ Reaches workspace.noted consumer (fs.resolve path) := by
  constructor
  · intro h
    rcases reaches_of_mem_dependentsFrom h with hfound | ⟨hstart, provider, hprovider, hreaches⟩
    · exact absurd hfound List.not_mem_nil
    · rw [List.mem_singleton.mp hprovider] at hreaches
      exact ⟨hstart, hreaches⟩
  · rintro ⟨hne, hreaches⟩
    have hsearched : workspace.Searched (fs.resolve path) (workspace.dependents fs path) [] := by
      refine searched_dependentsFrom fun other hother => .inl ?_
      rcases hother with rfl | hother
      · exact List.mem_singleton.mpr rfl
      · exact absurd hother List.not_mem_nil
    -- from the start backwards, each stylesheet on the way is the start or has been found
    have hall : consumer = fs.resolve path ∨ consumer ∈ workspace.dependents fs path := by
      clear hne
      induction hreaches using Relation.ReflTransGen.head_induction_on with
      | refl => exact .inl rfl
      | head hstep _ ih =>
        rcases hsearched _ ih with hpending | himporters
        · exact absurd hpending List.not_mem_nil
        · exact himporters _ hstep
    rcases hall with heq | hmem
    · exact absurd heq hne
    · exact hmem

end Stylesheet.Workspace
