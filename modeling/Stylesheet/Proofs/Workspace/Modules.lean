import Stylesheet.Proofs.Workspace.UpToDate
import Stylesheet.Workspace.Module

/-!
# Modules from a workspace that is up to date

- `Workspace.holding`: the workspace from which a module is made: it holds the stylesheet whose text
  is given. `emitModule_of_ok` is the module's exploration.
- `Workspace.moduleGraph`: the stylesheets that a module is made of.
- `UpToDate.emitModule`: making a module keeps a workspace up to date.
- `emitModule_congr`: workspaces that are up to date give the same modules.
-/

namespace Stylesheet.Workspace

variable {fs : FileSystem} {tree tree' : SourceTree} {overrides : Overrides}
  {workspace workspace' : Workspace} {code id : Text} {sheet : Sheet}

/-- The workspace that holds a stylesheet, whatever it held before. -/
def holding (workspace : Workspace) (path : Text) (sheet : Sheet) : Workspace :=
  { workspace with sheets := workspace.sheets.insert path sheet }

/-- The stylesheet that a module is asked for, as its text is read. -/
def entrySheet (fs : FileSystem) (overrides : Overrides) (code id : Text) :
    Except SyntaxError Sheet :=
  Document.parse fs { overrides with filename := some (fs.resolve id) } code

/-- The stylesheets that a module is made of: the one that is asked for and all that it reaches. -/
def moduleGraph (fs : FileSystem) (overrides : Overrides) (workspace : Workspace) (code id : Text) :
    Except SyntaxError (Table Text Sheet) := do
  let sheet ← entrySheet fs overrides code id
  ((workspace.holding (fs.resolve id) sheet).explore fs overrides (fs.resolve id)).result

/-- The text that a module is asked for is read as a file is, whose first line has the number 1. -/
theorem entrySheet_eq_readSheet (hline : overrides.line = none) (code id : Text) :
    entrySheet fs overrides code id = readSheet fs overrides (fs.resolve id) code := by
  unfold entrySheet readSheet
  rw [← hline]

theorem emitModule_of_error {e : SyntaxError} (h : entrySheet fs overrides code id = .error e) :
    workspace.emitModule fs overrides code id = ⟨.error e, workspace, []⟩ := by
  unfold entrySheet at h
  unfold emitModule
  dsimp only
  rw [h]

/-- A module is made from an exploration. -/
theorem emitModule_of_ok (h : entrySheet fs overrides code id = .ok sheet) :
    workspace.emitModule fs overrides code id =
      { (workspace.holding (fs.resolve id) sheet).explore fs overrides (fs.resolve id) with
        result :=
          ((workspace.holding (fs.resolve id) sheet).explore fs overrides
            (fs.resolve id)).result.map fun graph =>
              moduleText (graph.entries.filter (fun entry => entry.1 != fs.resolve id)) sheet } := by
  unfold entrySheet at h
  unfold emitModule
  dsimp only
  rw [h]
  rfl

/-- A module does not depend on how its path is given. -/
theorem emitModule_resolve {id' : Text} (code : Text) (h : fs.resolve id = fs.resolve id') :
    workspace.emitModule fs overrides code id = workspace.emitModule fs overrides code id' := by
  unfold emitModule
  rw [h]

/-- A module shows the stylesheets that it is made of. -/
theorem emitModule_eq_ok {text : Text}
    (h : (workspace.emitModule fs overrides code id).result = .ok text) :
    ∃ sheet graph, entrySheet fs overrides code id = .ok sheet ∧
      ((workspace.holding (fs.resolve id) sheet).explore fs overrides (fs.resolve id)).result =
        .ok graph ∧
      workspace.moduleGraph fs overrides code id = .ok graph ∧
      text = moduleText (graph.entries.filter (fun entry => entry.1 != fs.resolve id)) sheet := by
  cases hentry : entrySheet fs overrides code id with
  | error e =>
    rw [emitModule_of_error hentry] at h
    cases h
  | ok sheet =>
    rw [emitModule_of_ok hentry] at h
    obtain ⟨graph, hgraph, rfl⟩ := map_eq_ok.mp h
    refine ⟨sheet, graph, rfl, hgraph, ?_, rfl⟩
    unfold moduleGraph
    rw [hentry]
    exact hgraph

/-! ## Modules of source trees -/

theorem entrySheet_eq_read (hline : overrides.line = none) (id : Text) :
    entrySheet tree.fs overrides (tree.text (tree.fs.resolve id)) id =
      tree.read overrides (tree.fs.resolve id) :=
  entrySheet_eq_readSheet hline _ id

theorem UpToDate.holding (h : workspace.UpToDate tree overrides []) (hid : Path.IsSheet id)
    (hsheet : tree.read overrides (tree.fs.resolve id) = .ok sheet) :
    (workspace.holding (tree.fs.resolve id) sheet).UpToDate tree overrides [] :=
  h.insert hsheet (hid.resolve tree.fs.working []) (tree.fs.resolve_resolve id)

/-- Making a module keeps a workspace up to date, even if it fails. -/
theorem UpToDate.emitModule (h : workspace.UpToDate tree overrides [])
    (hline : overrides.line = none) (hid : Path.IsSheet id) :
    (workspace.emitModule tree.fs overrides (tree.text (tree.fs.resolve id)) id).workspace.UpToDate
      tree overrides [] := by
  have hentry : entrySheet tree.fs overrides (tree.text (tree.fs.resolve id)) id =
      tree.read overrides (tree.fs.resolve id) := entrySheet_eq_read hline id
  cases hread : tree.read overrides (tree.fs.resolve id) with
  | error e =>
    rw [emitModule_of_error (hentry.trans hread)]
    exact h
  | ok sheet =>
    rw [emitModule_of_ok (hentry.trans hread)]
    refine (h.holding hid hread).explore ?_
    rw [FileSystem.resolve_resolve]
    exact hid.resolve tree.fs.working []

theorem get?_holding (path : Text) :
    (workspace.holding path sheet).sheets.get? path = some sheet := by
  unfold Workspace.holding
  rw [Table.get?_insert, if_pos rfl]

/-- Workspaces that are up to date give the same module and the same notices, where the texts of the
stylesheets that may be visited are the same. -/
theorem emitModule_congr {S : Text → Prop} (h : workspace.UpToDate tree overrides [])
    (h' : workspace'.UpToDate tree' overrides []) (hline : overrides.line = none)
    (hid : Path.IsSheet id) (hsame : tree.Same tree')
    (hentry : S (tree.fs.resolve id)) (htext : ∀ path, S path → tree.text path = tree'.text path)
    (hvisit : ∀ path, S path → tree.MayVisit id path)
    (hconfined : ∀ sheet, tree.read overrides (tree.fs.resolve id) = .ok sheet →
      (workspace.holding (tree.fs.resolve id) sheet).Confined tree.fs overrides S) :
    (workspace.emitModule tree.fs overrides (tree.text (tree.fs.resolve id)) id).result =
        (workspace'.emitModule tree'.fs overrides (tree.text (tree.fs.resolve id)) id).result ∧
      (workspace.emitModule tree.fs overrides (tree.text (tree.fs.resolve id)) id).notices =
        (workspace'.emitModule tree'.fs overrides (tree.text (tree.fs.resolve id)) id).notices := by
  -- both modules are asked for with one text, which is read in the same way
  have hpath : tree'.fs.resolve id = tree.fs.resolve id := (hsame.resolve id).symm
  have hleft : entrySheet tree.fs overrides (tree.text (tree.fs.resolve id)) id =
      tree.read overrides (tree.fs.resolve id) := entrySheet_eq_read hline id
  have hright : entrySheet tree'.fs overrides (tree.text (tree.fs.resolve id)) id =
      tree.read overrides (tree.fs.resolve id) := by
    rw [SourceTree.read_congr hsame (htext _ hentry), htext _ hentry, ← hpath]
    exact entrySheet_eq_read hline id
  cases hread : tree.read overrides (tree.fs.resolve id) with
  | error e =>
    rw [emitModule_of_error (hleft.trans hread), emitModule_of_error (hright.trans hread)]
    exact ⟨rfl, rfl⟩
  | ok sheet =>
    have hread' : tree'.read overrides (tree'.fs.resolve id) = .ok sheet := by
      rw [hpath, ← SourceTree.read_congr hsame (htext _ hentry), hread]
    have hagree : (workspace.holding (tree.fs.resolve id) sheet).Agree tree.fs tree'.fs overrides
        (workspace'.holding (tree.fs.resolve id) sheet) S := by
      -- from here on both hold the stylesheet asked for, even if its file cannot be read
      refine agree_of_upToDate (h.holding hid hread) ?_ hsame htext (fun path hmem => ?_)
        (hconfined sheet hread)
      · rw [← hpath]
        exact h'.holding hid hread'
      · rcases hvisit path hmem with rfl | hserves
        · rw [get?_holding, get?_holding]
          exact .inr ⟨rfl, rfl⟩
        · exact .inl hserves.readable
    have hvisited : S (tree.fs.resolve (tree.fs.resolve id)) := by
      rw [FileSystem.resolve_resolve]
      exact hentry
    obtain ⟨hresult, hnotices⟩ := explore_congr hagree hsame.working (tree.fs.resolve id) hvisited
    rw [emitModule_of_ok (hleft.trans hread), emitModule_of_ok (hright.trans hread), hpath]
    dsimp only
    rw [hresult]
    exact ⟨rfl, hnotices⟩

end Stylesheet.Workspace
