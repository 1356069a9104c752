import Stylesheet.Workspace.Basic

/-!
# Which stylesheets depend on one

- `Workspace.importers`: the stylesheets that import a given one directly.
- `Workspace.dependents`: those that do so directly or through others (`getImportDependents`).
-/

namespace Stylesheet.Workspace

/-- The paths noted to import `provider` directly, without `start` and those found before: one round
of the loop of `getImportDependents`. -/
def importers (workspace : Workspace) (start : Text) (found : List Text) (provider : Text) :
    List Text :=
  workspace.imports.keys.filter fun consumer =>
    -- A path found in this round cannot come again in it: the keys of a table differ.
    !found.contains consumer && consumer != start &&
      ((workspace.imports.get? consumer).getD []).contains provider

/-- The number of paths with noted imports that have not been found. -/
def unfound (workspace : Workspace) (found : List Text) : Nat :=
  workspace.imports.keys.countP (fun path => !found.contains path)

theorem countP_add_length_filter {α : Type} [BEq α] [LawfulBEq α] (keys found : List α)
    (q : α → Bool) :
    keys.countP (fun k => !(found ++ keys.filter (fun k => !found.contains k && q k)).contains k) +
      (keys.filter (fun k => !found.contains k && q k)).length =
      keys.countP (fun k => !found.contains k) := by
  have hsplit : ∀ l : List α, l ⊆ keys →
      l.countP (fun k => !(found ++ keys.filter (fun k => !found.contains k && q k)).contains k) +
        l.countP (fun k => !found.contains k && q k) = l.countP (fun k => !found.contains k) := by
    intro l
    induction l with
    | nil => simp
    | cons k l ih =>
      intro hsub
      have hk : k ∈ keys := hsub List.mem_cons_self
      have ih := ih fun x hx => hsub (List.mem_cons_of_mem _ hx)
      simp only [List.countP_cons]
      by_cases hf : k ∈ found
      · simp [hf] at ih ⊢
        omega
      · by_cases hq : q k = true
        · simp [hf, hk, hq] at ih ⊢
          omega
        · simp [hf, hq] at ih ⊢
          omega
  rw [← List.countP_eq_length_filter]
  exact hsplit keys (List.Subset.refl _)

theorem unfound_importers (workspace : Workspace) (start provider : Text) (found : List Text) :
    workspace.unfound (found ++ workspace.importers start found provider) +
      (workspace.importers start found provider).length = workspace.unfound found := by
  have h := countP_add_length_filter workspace.imports.keys found (fun consumer =>
    consumer != start && ((workspace.imports.get? consumer).getD []).contains provider)
  simp only [← Bool.and_assoc] at h
  exact h

/-- Looks for the importers of the pending paths, the newest of which come first. Every path that is
found is pending once, so fewer and fewer are left to be found. -/
def dependentsFrom (workspace : Workspace) (start : Text) (found : List Text) :
    List Text → List Text
  | [] => found
  | provider :: pending =>
    let consumers := workspace.importers start found provider
    -- The pending paths are a stack: the last importer that was found is taken first.
    dependentsFrom workspace start (found ++ consumers) (consumers.reverse ++ pending)
termination_by pending => workspace.unfound found + pending.length
decreasing_by
  have h := unfound_importers workspace start provider found
  simp only [List.length_append, List.length_reverse, List.length_cons]
  omega

/-- The stylesheets that import the one at a path, directly or through others, in the order in which
they are found (`getImportDependents`). -/
def dependents (fs : FileSystem) (workspace : Workspace) (path : Text) : List Text :=
  dependentsFrom workspace (fs.resolve path) [] [fs.resolve path]

end Stylesheet.Workspace
