import Stylesheet.Proofs.Workspace.Provenance

/-!
# A module without its own file

A module is made from the text that is handed over. What stands in the stylesheet's own file is not
read, even where the stylesheets that it imports lead back to it.

- `FileSystem.AlikeBut`: two file systems that differ at most in the content of one readable file.
- `AlikeBut.lookup_eq`: a workspace that holds the stylesheet of this file answers alike over both.
- `Traversal.visits_of_alikeBut`: a traversal from such a workspace takes the same course over both.
- `Workspace.emitModule_of_alikeBut`: the module of the stylesheet is the same, whatever its file
  holds.
-/

namespace Stylesheet

variable {fs fs' : FileSystem} {overrides : Overrides} {workspace : Workspace} {path : Text}
  {sheet : Sheet}

/-- Two file systems are alike but for the content of the file at a path, which can be read in
both. -/
structure FileSystem.AlikeBut (path : Text) (fs fs' : FileSystem) : Prop where
  working : fs.working = fs'.working
  readable : fs.isReadable path = true
  readable' : fs'.isReadable path = true
  elsewhere : ∀ other, other ≠ path → fs.entries.get? other = fs'.entries.get? other

namespace FileSystem.AlikeBut

theorem resolve_eq (h : fs.AlikeBut path fs') (other : Text) : fs.resolve other = fs'.resolve other := by
  unfold FileSystem.resolve
  rw [h.working]

theorem read?_eq (h : fs.AlikeBut path fs') {other : Text} (hne : other ≠ path) :
    fs.read? other = fs'.read? other := by
  unfold FileSystem.read?
  rw [h.elsewhere other hne]

theorem isReadable_eq (h : fs.AlikeBut path fs') (other : Text) :
    fs.isReadable other = fs'.isReadable other := by
  by_cases heq : other = path
  · rw [heq, h.readable, h.readable']
  · unfold FileSystem.isReadable
    rw [h.read?_eq heq]

/-- A text is read alike: the same imports are found in both. -/
theorem parse_eq (h : fs.AlikeBut path fs') (overrides : Overrides) (source : Text) :
    Document.parse fs overrides source = Document.parse fs' overrides source :=
  Document.parse_congr h.working h.isReadable_eq overrides source

/-- A stylesheet that is held is not read, so that every answer is the same. -/
theorem lookup_eq (h : fs.AlikeBut path fs') (hheld : workspace.sheets.get? path = some sheet)
    (other : Text) (site : Site) :
    workspace.lookup fs overrides other site = workspace.lookup fs' overrides other site := by
  by_cases heq : other = path
  · rw [heq, Workspace.lookup_of_get? hheld, Workspace.lookup_of_get? hheld]
  · unfold Workspace.lookup Workspace.readSheet
    rw [h.read?_eq heq, funext (h.parse_eq _)]

end FileSystem.AlikeBut

namespace Traversal

variable {agenda : List Visit} {t final : Traversal} {result : Except SyntaxError Unit}

/-- A visit gets the same answer, however far the traversal has come: it still holds what the
workspace at its start held. -/
theorem Faithful.answer_alikeBut (h : Faithful fs overrides workspace t) (halike : fs.AlikeBut path fs')
    (hheld : workspace.sheets.get? path = some sheet) (visit : Visit) :
    t.answer fs overrides visit = t.answer fs' overrides visit :=
  halike.lookup_eq (h.held hheld) _ _

/-- A traversal takes the same course over both file systems. -/
theorem visits_of_alikeBut (halike : fs.AlikeBut path fs')
    (hheld : workspace.sheets.get? path = some sheet) (h : Visits fs overrides agenda t result final)
    (hfaithful : Faithful fs overrides workspace t) : Visits fs' overrides agenda t result final := by
  -- whatever has been visited, the stylesheet of the file is still held, so no answer reads the file
  induction h with
  | done => exact .done
  | @circle visit _ _ _ _ hchain _ ih => exact .circle hchain (ih (hfaithful.circled visit))
  | known hchain hknown _ ih => exact .known hchain hknown (ih hfaithful)
  | @failed visit _ _ _ hchain hnew hanswer =>
    exact .failed hchain hnew ((hfaithful.answer_alikeBut halike hheld visit).symm.trans hanswer)
  | @entered visit _ _ _ _ _ _ hchain hnew hanswer hinner _ ihInner ihRest =>
    have hvisited := hfaithful.visited hanswer
    exact .entered hchain hnew ((hfaithful.answer_alikeBut halike hheld visit).symm.trans hanswer)
      (ihInner hvisited) (ihRest (faithful_of_visits hinner hvisited))
  | @stopped visit _ _ _ _ _ hchain hnew hanswer _ ihInner =>
    exact .stopped hchain hnew ((hfaithful.answer_alikeBut halike hheld visit).symm.trans hanswer)
      (ihInner (hfaithful.visited hanswer))

end Traversal

namespace Workspace

/-- An exploration of a workspace that holds the stylesheet of the file is the same over both. -/
theorem explore_of_alikeBut (halike : fs.AlikeBut path fs')
    (hheld : workspace.sheets.get? path = some sheet) (entry : Text) :
    workspace.explore fs overrides entry = workspace.explore fs' overrides entry := by
  obtain ⟨result, final, hvisits, hexplore⟩ := explore_visits fs overrides workspace entry
  have hvisits' := Traversal.visits_of_alikeBut halike hheld hvisits (Traversal.faithful_start workspace)
  rw [hexplore]
  unfold explore
  rw [← halike.resolve_eq entry, hvisits'.run_eq]

/-- A module never depends on what its own file holds: over two file systems that differ in nothing
else it is made with the same result or error, the same notices and the same workspace, also where
other stylesheets import it. -/
theorem emitModule_of_alikeBut {id : Text} (h : fs.AlikeBut (fs.resolve id) fs') (overrides : Overrides)
    (workspace : Workspace) (code : Text) :
    workspace.emitModule fs overrides code id = workspace.emitModule fs' overrides code id := by
  have hentry : entrySheet fs' overrides code id = entrySheet fs overrides code id := by
    unfold entrySheet
    rw [← h.resolve_eq id, h.parse_eq]
  cases hread : entrySheet fs overrides code id with
  | error e => rw [emitModule_of_error hread, emitModule_of_error (hentry.trans hread)]
  | ok sheet =>
    -- the sheet is put into the workspace before the traversal starts
    rw [emitModule_of_ok hread, emitModule_of_ok (hentry.trans hread), ← h.resolve_eq id,
      explore_of_alikeBut h (get?_holding (fs.resolve id)) (fs.resolve id)]

/-- The stylesheet is imported by another one that it imports, and its own file, which does so no
longer, could not even be parsed. -/
theorem emitModule_of_broken_file :
    circularFiles.AlikeBut (circularFiles.resolve "a.terrace")
        (circularFiles.write "/a.terrace" (.file "@else")) ∧
      empty.emitModule circularFiles {} "@import b" "a.terrace" =
        empty.emitModule (circularFiles.write "/a.terrace" (.file "@else")) {} "@import b" "a.terrace" ∧
      (empty.emitModule circularFiles {} "@import b" "a.terrace").notices.length = 2 := by
  have hentry : circularFiles.resolve "a.terrace" = ("/a.terrace" : Text) := by decide +kernel
  have halike : circularFiles.AlikeBut (circularFiles.resolve "a.terrace")
      (circularFiles.write "/a.terrace" (.file "@else")) := by
    rw [hentry]
    refine ⟨rfl, by decide +kernel, by decide +kernel, fun other hne => ?_⟩
    exact ((Table.get?_insert _ _ _ _).trans (if_neg hne.symm)).symm
  exact ⟨halike, emitModule_of_alikeBut halike {} empty "@import b", by decide +kernel⟩

end Workspace

end Stylesheet
