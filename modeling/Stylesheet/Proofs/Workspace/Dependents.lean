import Mathlib.Data.List.Perm.Subperm
import Mathlib.Logic.Function.Iterate
import Stylesheet.Proofs.Workspace.Importers

/-!
# The search for dependents

What is noted about imports may be any finite relation: stylesheets may import each other in
circles, or themselves, and paths may be noted of which nothing else is known.

- `Workspace.searchRound`: what one round of the search does to the paths found and those pending.
- `iterate_searchRound`: each path is pending for one round only, so the search ends.
- `nodup_dependentsFrom`: no path is found twice.
- `dependents_exact`: the search finds just the other stylesheets from which imports lead to a path.
-/

namespace Stylesheet.Workspace

variable {workspace : Workspace} {start : Text} {found pending : List Text}

/-! ## What has been found -/

/-- What has been found stays found. -/
theorem isPrefix_dependentsFrom (workspace : Workspace) (start : Text) (found pending : List Text) :
    found <+: workspace.dependentsFrom start found pending := by
  fun_induction dependentsFrom workspace start found pending with
  | case1 found => exact List.prefix_refl found
  | case2 found provider pending consumers ih => exact (List.prefix_append found consumers).trans ih

theorem nodup_append_importers (h : found.Nodup) (provider : Text) :
    (found ++ workspace.importers start found provider).Nodup := by
  have hkeys : (workspace.importers start found provider).Nodup :=
    workspace.imports.nodup_keys.filter _
  refine List.nodup_append.mpr ⟨h, hkeys, fun path hfound other hnew heq => ?_⟩
  rw [← heq] at hnew
  exact (mem_importers.mp hnew).2.1 hfound

/-- No path is found twice. -/
theorem nodup_dependentsFrom (h : found.Nodup) :
    (workspace.dependentsFrom start found pending).Nodup := by
  fun_induction dependentsFrom workspace start found pending with
  | case1 found => exact h
  | case2 found provider pending consumers ih => exact ih (nodup_append_importers h provider)

/-! ## Rounds -/

/-- One round of the search: the newest pending path gives way to the paths that import it and have
not been found before. With nothing pending the search stands still. -/
def searchRound (workspace : Workspace) (start : Text) :
    List Text × List Text → List Text × List Text
  | (found, []) => (found, [])
  | (found, provider :: pending) =>
    (found ++ workspace.importers start found provider,
      (workspace.importers start found provider).reverse ++ pending)

/-- Each path that is pending or will be found takes one round; behind these nothing is pending. -/
theorem iterate_searchRound (workspace : Workspace) (start : Text) (found pending : List Text) :
    ∀ rounds, found.length + rounds =
        (workspace.dependentsFrom start found pending).length + pending.length →
      (workspace.searchRound start)^[rounds] (found, pending) =
        (workspace.dependentsFrom start found pending, []) := by
  fun_induction dependentsFrom workspace start found pending with
  | case1 found =>
    intro rounds h
    obtain rfl : rounds = 0 := by simpa using h
    rfl
  | case2 found provider pending consumers ih =>
    intro rounds h
    have hgrown := (isPrefix_dependentsFrom workspace start (found ++ consumers)
      (consumers.reverse ++ pending)).length_le
    simp only [List.length_append, List.length_cons] at h hgrown
    obtain ⟨rest, rfl⟩ : ∃ rest, rounds = rest + 1 := ⟨rounds - 1, by omega⟩
    rw [Function.iterate_succ_apply]
    apply ih
    simp only [List.length_append, List.length_reverse]
    omega

/-! ## Dependents -/

/-- Whatever imports are noted, the search for the dependents of a path has nothing pending after
one round for the path and one for each dependent, of which there are no more than paths with noted
imports. No dependent is found twice, and they are just those paths with noted imports, other than
the path, from which a chain of one or more imports leads to it. -/
theorem dependents_exact (fs : FileSystem) (workspace : Workspace) (path : Text) :
    (workspace.searchRound (fs.resolve path))^[(workspace.dependents fs path).length + 1]
        ([], [fs.resolve path]) = (workspace.dependents fs path, []) ∧
      (workspace.dependents fs path).length ≤ workspace.imports.keys.length ∧
      (workspace.dependents fs path).Nodup ∧
      ∀ consumer, consumer ∈ workspace.dependents fs path ↔
        consumer ∈ workspace.imports.keys ∧ consumer ≠ fs.resolve path ∧
          Relation.TransGen (fun upper lower => lower ∈ workspace.noted upper) consumer
            (fs.resolve path) := by
  have hmem : ∀ consumer, consumer ∈ workspace.dependents fs path ↔
      consumer ∈ workspace.imports.keys ∧ consumer ≠ fs.resolve path ∧
        Relation.TransGen (fun upper lower => lower ∈ workspace.noted upper) consumer
          (fs.resolve path) := by
    intro consumer
    rw [mem_dependents_iff]
    constructor
    · rintro ⟨hne, hreaches⟩
      rcases Relation.reflTransGen_iff_eq_or_transGen.mp hreaches with heq | hchain
      · exact absurd heq.symm hne
      · obtain ⟨next, himport, -⟩ := Relation.TransGen.head'_iff.mp hchain
        exact ⟨mem_keys_of_noted himport, hne, hchain⟩
    · rintro ⟨-, hne, hchain⟩
      exact ⟨hne, hchain.to_reflTransGen⟩
  have hnodup : (workspace.dependents fs path).Nodup := nodup_dependentsFrom List.nodup_nil
  refine ⟨iterate_searchRound workspace _ _ _ _ ?_, ?_, hnodup, hmem⟩
  · show 0 + ((workspace.dependents fs path).length + 1) = _
    rw [Nat.zero_add]
    rfl
  · have hkeys : workspace.dependents fs path ⊆ workspace.imports.keys :=
      fun consumer hconsumer => ((hmem consumer).mp hconsumer).1
    exact (hnodup.subperm hkeys).length_le

end Stylesheet.Workspace
