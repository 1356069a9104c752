import Stylesheet.Proofs.Workspace.Modules
import Stylesheet.Server

/-!
# Projects

A server is used while files are edited. It is told of each edit before it is asked for a module
again, and a module is asked for with the text that its file has.

- `Event`, `Project`: what happens, and the files, the server and the edits that it does not know
  of.
- `Project.next`: the project after an event. `Project.Allows` says which events may come next, and
  `Project.Run` strings events together.
- `Project.Sound`: the invariant: the server's workspace is up to date but for the unnoticed edits.
- `Sound.next`, `sound_of_run`: an event preserves it, and so does every run.
-/

namespace Stylesheet

/-- A server that has not been asked for anything. -/
def Server.start (style : Option Text) (loadPaths : Option (List Text)) : Server where
  overrides := { style, loadPaths }

/-- What happens to a project. -/
inductive Event where
  /-- The module for an address is asked for, with the text found there. -/
  | request (code id : Text)
  /-- The file at a path gets a new text. -/
  | edit (path content : Text)
  /-- The server is told that the file at an address has changed. -/
  | notify (address : Text)

/-- Files, the server behind which they stand, and the paths of edits that it has not been told
of. -/
structure Project where
  tree : SourceTree
  server : Server
  unnoticed : List Text := []

namespace Project

/-- A project whose server has not been asked for anything. -/
def start (tree : SourceTree) (style : Option Text) (loadPaths : Option (List Text)) : Project where
  tree := tree
  server := .start style loadPaths

/-- The project after an event. The address of a changed file may carry a query. -/
def next (project : Project) : Event → Project
  | .request code id =>
    { project with
      server :=
        { project.server with
          workspace := (project.server.transform project.tree.fs code id).workspace } }
  | .edit path content =>
    { project with
      tree := project.tree.edit path content
      unnoticed := path :: project.unnoticed }
  | .notify address =>
    { project with
      server := (project.server.update project.tree.fs address ([] : List Text) fun _ => []).2
      unnoticed := project.unnoticed.filter (· ≠ Server.withoutQuery address) }

/-- Whether an event may come next: a module is asked for with the text of its file, and not before
the server has been told of all edits. -/
def Allows (project : Project) : Event → Prop
  | .request code id =>
    project.unnoticed = [] ∧
      code = project.tree.text (project.tree.fs.resolve (Server.withoutQuery id))
  | .edit _ _ | .notify _ => True

/-- A run through a list of events, each of which the project at that point allows. -/
inductive Run (allows : Project → Event → Prop) : Project → List Event → Project → Prop where
  | done {project : Project} : Run allows project [] project
  | step {project final : Project} {event : Event} {events : List Event}
    (hallows : allows project event) (hrest : Run allows (project.next event) events final) :
    Run allows project (event :: events) final

/-- What every allowed event preserves, a run preserves. -/
theorem Run.preserves {allows : Project → Event → Prop} {P : Project → Prop}
    {project final : Project} {events : List Event} (h : Run allows project events final)
    (hnext : ∀ project event, allows project event → P project → P (project.next event))
    (hstart : P project) : P final := by
  induction h with
  | done => exact hstart
  | step hallows _ ih => exact ih (hnext _ _ hallows hstart)

/-- A stylesheet that imports another one by its name, both in the root directory. -/
def importing (name : Text) : Project :=
  start
    (.ofFiles
      { working := ['/']
        entries := .insert (.insert .empty "/main.terrace" (.file ("@import " ++ name)))
          ("/" ++ name ++ ".terrace") (.file "a") })
    none none

/-- The same, after the module has been asked for and the imported file has been edited. -/
def edited (name : Text) : Project :=
  ((importing name).next (.request ("@import " ++ name) "/main.terrace")).next
    (.edit ("/" ++ name ++ ".terrace") "b")

end Project

/-! ## The server's part -/

namespace Server

variable {fs : FileSystem} {server : Server} {code id file : Text}

theorem isSheet_iff {path : Text} : isSheet path = true ↔ Path.IsSheet path :=
  List.isSuffixOf_iff_suffix

/-- The notices for a module that could not be made. -/
def failures (id : Text) : Except SyntaxError Text → List Notice
  | .ok _ => []
  | .error e => [.failedModule id e]

/-- The answer to a request for a stylesheet is its module, and a failure is noticed. -/
theorem transform_of_isSheet (h : isSheet (withoutQuery id) = true) :
    server.transform fs code id =
      let response := server.workspace.emitModule fs server.overrides code (withoutQuery id)
      ⟨response.result.map some, response.workspace,
        response.notices ++ failures id response.result⟩ := by
  unfold transform
  rw [if_pos h]
  dsimp only
  cases hresult : (server.workspace.emitModule fs server.overrides code (withoutQuery id)).result with
  | error e => rfl
  | ok text =>
    show Response.mk _ _ _ = Response.mk _ _ (_ ++ [])
    rw [List.append_nil]
    rfl

theorem transform_of_not_isSheet (h : isSheet (withoutQuery id) = false) :
    server.transform fs code id = ⟨.ok none, server.workspace, []⟩ := by
  unfold transform
  rw [if_neg (by rw [h]; exact Bool.false_ne_true)]

/-- What is told about a change does not depend on the modules that are out of date. -/
theorem update_of_isSheet {α : Type} [DecidableEq α] {modules : List α} {modulesOf : Text → List α}
    (h : isSheet (withoutQuery file) = true) :
    (server.update fs file modules modulesOf).2 =
      { server with workspace := server.workspace.forget fs (some (withoutQuery file)) } := by
  unfold update
  dsimp only
  rw [if_pos h]

theorem update_of_not_isSheet {α : Type} [DecidableEq α] {modules : List α}
    {modulesOf : Text → List α} (h : isSheet (withoutQuery file) = false) :
    server.update fs file modules modulesOf = (none, server) := by
  unfold update
  dsimp only
  rw [if_neg (by rw [h]; exact Bool.false_ne_true)]

end Server

/-! ## The invariant -/

namespace Project

/-- The server has kept its settings, and its workspace is up to date but for unnoticed edits. -/
structure Sound (overrides : Overrides) (project : Project) : Prop where
  overrides_eq : project.server.overrides = overrides
  upToDate : project.server.workspace.UpToDate project.tree overrides project.unnoticed

variable {overrides : Overrides} {project final : Project} {event : Event} {events : List Event}
  {tree : SourceTree} {style : Option Text} {loadPaths : Option (List Text)}

theorem sound_start : Sound (Server.start style loadPaths).overrides (start tree style loadPaths) where
  overrides_eq := rfl
  upToDate := Workspace.upToDate_empty

/-- Every event that is allowed preserves the invariant. -/
theorem Sound.next (h : project.Sound overrides) (hline : overrides.line = none)
    (hallows : project.Allows event) : (project.next event).Sound overrides := by
  cases event with
  | request code id =>
    obtain ⟨hnoticed, rfl⟩ := hallows
    refine ⟨h.overrides_eq, ?_⟩
    -- a request finds nothing stale, and leaves nothing stale
    have hupToDate := h.upToDate
    show (project.server.transform project.tree.fs _ id).workspace.UpToDate project.tree overrides
      project.unnoticed
    rw [hnoticed] at hupToDate ⊢
    cases hsheet : Server.isSheet (Server.withoutQuery id) with
    | true =>
      rw [Server.transform_of_isSheet hsheet, h.overrides_eq]
      exact hupToDate.emitModule hline (Server.isSheet_iff.mp hsheet)
    | false =>
      rw [Server.transform_of_not_isSheet hsheet]
      exact hupToDate
  | edit path content => exact ⟨h.overrides_eq, h.upToDate.edit path content⟩
  | notify address =>
    unfold Project.next
    dsimp only
    cases hsheet : Server.isSheet (Server.withoutQuery address) with
    | true =>
      rw [Server.update_of_isSheet hsheet]
      exact ⟨h.overrides_eq, h.upToDate.forget (Server.isSheet_iff.mp hsheet)⟩
    | false =>
      rw [Server.update_of_not_isSheet hsheet]
      -- the workspace holds stylesheets only
      refine ⟨h.overrides_eq, h.upToDate.filter ?_⟩
      cases hheld : project.server.workspace.sheets.get? (Server.withoutQuery address) with
      | none => rfl
      | some sheet =>
        have hpath := Server.isSheet_iff.mpr (h.upToDate.place _ sheet hheld).1
        rw [hsheet] at hpath
        cases hpath

/-- Every run preserves the invariant. -/
theorem sound_of_run (h : Run Allows (start tree style loadPaths) events final) :
    final.Sound (Server.start style loadPaths).overrides :=
  h.preserves (fun _ _ hallows hsound => hsound.next rfl hallows) sound_start

end Project

end Stylesheet
