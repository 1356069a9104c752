import Stylesheet.Proofs.Workspace.Importers
import Stylesheet.Proofs.Workspace.Modules

/-!
# What a module is made of

- `Snapshot`: the stylesheets of a module, with the imports between them, as the files were read.
- `UpToDate.snapshot`: a module that is made from an up-to-date workspace leaves a snapshot.
- `Snapshot.emitModule_eq`: as long as the texts of a snapshot stay, its module stays the same.
- `Workspace.Notes`: a workspace still notes the imports of a graph's stylesheets. Making other
  modules preserves this (`Notes.emitModule`), so that a snapshot's entry leads to all of it
  (`Notes.reaches`).
-/

namespace Stylesheet

/-- The paths that a stylesheet of a graph imports, in their order. -/
def graphTargets (graph : Table Text Sheet) (path : Text) : List Text :=
  match graph.get? path with
  | none => []
  | some sheet => sheet.imports.map Document.SheetImport.path

/-- The stylesheets that can be reached from an entry, as the files of a tree are read. -/
structure Snapshot (tree : SourceTree) (overrides : Overrides) (entry : Text)
    (graph : Table Text Sheet) : Prop where
  read : ∀ path sheet, graph.get? path = some sheet → tree.read overrides path = .ok sheet
  mem_iff : ∀ path, path ∈ graph.keys ↔ Reaches (graphTargets graph) entry path

namespace Snapshot

variable {tree tree' : SourceTree} {overrides : Overrides} {entry id path : Text}
  {graph : Table Text Sheet} {sheet : Sheet}

theorem entry_mem (h : Snapshot tree overrides entry graph) : entry ∈ graph.keys :=
  (h.mem_iff entry).mpr .refl

/-- No import leads out of a snapshot. -/
theorem closed (h : Snapshot tree overrides entry graph) (hget : graph.get? path = some sheet) :
    ∀ imported ∈ sheet.imports, imported.path ∈ graph.keys := by
  intro imported himported
  have hreaches := (h.mem_iff path).mp (Table.mem_keys_of_get? hget)
  refine (h.mem_iff imported.path).mpr (hreaches.tail ?_)
  unfold graphTargets
  rw [hget]
  exact List.mem_map_of_mem himported

/-- A stylesheet of a snapshot is the entry, or it has been found where it can be read. -/
theorem serves (h : Snapshot tree overrides entry graph) (hmem : path ∈ graph.keys) :
    path = entry ∨ tree.fs.Serves path := by
  -- the last import on the way to it is one of a stylesheet that has been read
  rcases Relation.ReflTransGen.cases_tail ((h.mem_iff path).mp hmem) with rfl | ⟨last, _, hstep⟩
  · exact .inl rfl
  · right
    unfold graphTargets at hstep
    split at hstep
    · exact absurd hstep List.not_mem_nil
    · rename_i sheet hget
      obtain ⟨imported, himported, rfl⟩ := List.mem_map.mp hstep
      exact SourceTree.serves_of_read (h.read last sheet hget) imported himported

/-- A snapshot encloses what an up-to-date workspace may visit. -/
theorem confined {workspace : Workspace} (h : Snapshot tree overrides entry graph)
    (hupToDate : workspace.UpToDate tree overrides []) :
    workspace.Confined tree.fs overrides (· ∈ graph.keys) := by
  intro path hmem site sheet hlookup
  obtain ⟨visited, hget⟩ := Table.exists_get?_of_mem_keys hmem
  have hread := hupToDate.read_of_lookup hlookup
  rw [h.read path visited hget] at hread
  cases hread
  exact h.closed hget

/-- As long as the texts of a snapshot stay, new workspaces make the same module. -/
theorem emitModule_eq (h : Snapshot tree overrides (tree.fs.resolve id) graph)
    (hline : overrides.line = none) (hid : Path.IsSheet id) (hsame : tree.Same tree')
    (htext : ∀ path ∈ graph.keys, tree.text path = tree'.text path) :
    (Workspace.empty.emitModule tree.fs overrides (tree.text (tree.fs.resolve id)) id).result =
        (Workspace.empty.emitModule tree'.fs overrides (tree.text (tree.fs.resolve id)) id).result ∧
      (Workspace.empty.emitModule tree.fs overrides (tree.text (tree.fs.resolve id)) id).notices =
        (Workspace.empty.emitModule tree'.fs overrides (tree.text (tree.fs.resolve id)) id).notices :=
  Workspace.emitModule_congr Workspace.upToDate_empty Workspace.upToDate_empty hline hid hsame
    h.entry_mem htext (fun _ hmem => h.serves hmem)
    fun _ hread => h.confined (Workspace.upToDate_empty.holding hid hread)

end Snapshot

/-! ## Imports that are noted -/

namespace Workspace

variable {tree : SourceTree} {overrides : Overrides} {workspace : Workspace} {id entry path : Text}
  {graph : Table Text Sheet} {sheet : Sheet}

/-- The workspace notes the imports of a graph's stylesheets. -/
def Notes (workspace : Workspace) (graph : Table Text Sheet) : Prop :=
  ∀ path sheet, graph.get? path = some sheet →
    workspace.imports.get? path = some (sheet.imports.map Document.SheetImport.path).eraseDups

/-- All stylesheets of a snapshot whose imports are noted can be reached from the entry. -/
theorem Notes.reaches (h : workspace.Notes graph) (hsnapshot : Snapshot tree overrides entry graph)
    (hmem : path ∈ graph.keys) : Reaches workspace.noted entry path := by
  refine Relation.ReflTransGen.mono (fun consumer provider hstep => ?_) _ _
    ((hsnapshot.mem_iff path).mp hmem)
  unfold graphTargets at hstep
  split at hstep
  · exact absurd hstep List.not_mem_nil
  · rename_i sheet hget
    unfold noted
    rw [h consumer sheet hget]
    exact List.mem_eraseDups.mpr hstep

/-- A module that is made from an up-to-date workspace leaves a snapshot, whose imports are
noted. -/
theorem UpToDate.snapshot {text : Text} (h : workspace.UpToDate tree overrides [])
    (hline : overrides.line = none) (hid : Path.IsSheet id)
    (hresult : (workspace.emitModule tree.fs overrides (tree.text (tree.fs.resolve id)) id).result =
      .ok text) :
    ∃ graph,
      workspace.moduleGraph tree.fs overrides (tree.text (tree.fs.resolve id)) id = .ok graph ∧
      Snapshot tree overrides (tree.fs.resolve id) graph ∧
      (workspace.emitModule tree.fs overrides (tree.text (tree.fs.resolve id)) id).workspace.Notes
        graph := by
  obtain ⟨sheet, graph, hentry, hexplore, hgraph, -⟩ := emitModule_eq_ok hresult
  refine ⟨graph, hgraph, ?_⟩
  have hread : tree.read overrides (tree.fs.resolve id) = .ok sheet := by
    rw [← entrySheet_eq_read hline]
    exact hentry
  obtain ⟨final, rfl, hworkspace, hfaithful, horder⟩ := steps_of_explore hexplore
  have hvisited : ∀ path sheet, final.graph.get? path = some sheet →
      tree.read overrides path = .ok sheet := fun path sheet hget =>
    (h.holding hid hread).read_of_lookup (hfaithful.lookup_of_get? hget ⟨1, none⟩)
  rw [FileSystem.resolve_resolve] at horder
  -- the graph and the workspace at the start list the same imports for what has been visited
  have htargets : ∀ path ∈ final.graph.keys,
      (workspace.holding (tree.fs.resolve id) sheet).targets tree.fs overrides path =
        graphTargets final.graph path := by
    intro path hmem
    obtain ⟨visited, hget⟩ := Table.exists_get?_of_mem_keys hmem
    unfold graphTargets
    rw [hget]
    exact targets_of_lookup (hfaithful.lookup_of_get? hget ⟨1, none⟩)
  refine ⟨⟨hvisited, fun path => ?_⟩, ?_⟩
  · rw [horder.mem_iff_reaches]
    exact reaches_congr fun path hreaches => htargets path (horder.mem_iff_reaches.mpr hreaches)
  · rw [emitModule_of_ok hentry]
    show ((workspace.holding (tree.fs.resolve id) sheet).explore tree.fs overrides
      (tree.fs.resolve id)).workspace.Notes final.graph
    rw [hworkspace]
    exact hfaithful.noted

/-- Making another module notes the same imports again, where the files of a graph are read as they
were. -/
theorem Notes.emitModule (h : workspace.Notes graph) (hupToDate : workspace.UpToDate tree overrides [])
    (hline : overrides.line = none) (hid : Path.IsSheet id)
    (hread : ∀ path sheet, graph.get? path = some sheet → tree.read overrides path = .ok sheet) :
    (workspace.emitModule tree.fs overrides (tree.text (tree.fs.resolve id)) id).workspace.Notes
      graph := by
  have hentry : entrySheet tree.fs overrides (tree.text (tree.fs.resolve id)) id =
      tree.read overrides (tree.fs.resolve id) := entrySheet_eq_read hline id
  cases hopen : tree.read overrides (tree.fs.resolve id) with
  | error e =>
    rw [emitModule_of_error (hentry.trans hopen)]
    exact h
  | ok opened =>
    rw [emitModule_of_ok (hentry.trans hopen)]
    obtain ⟨result, final, hvisits, hexplore⟩ := explore_visits tree.fs overrides
      (workspace.holding (tree.fs.resolve id) opened) (tree.fs.resolve id)
    have hfaithful := Traversal.faithful_of_visits hvisits (Traversal.faithful_start _)
    rw [hexplore]
    intro path sheet hget
    show final.workspace.imports.get? path = _
    -- what is visited again is read as it was, and has the same imports
    cases hvisited : final.graph.get? path with
    | none =>
      rw [(hfaithful.untouched path hvisited).2]
      exact h path sheet hget
    | some visited =>
      have hagain := (hupToDate.holding hid hopen).read_of_lookup
        (hfaithful.lookup_of_get? hvisited ⟨1, none⟩)
      rw [hread path sheet hget] at hagain
      cases hagain
      exact hfaithful.noted path sheet hvisited

end Workspace

end Stylesheet
