import Stylesheet.Workspace.Dependents
import Stylesheet.Workspace.Module

/-!
# Serving modules while files change

- `Server`: the settings and the workspace behind a development server (`terracePlugin`).
- `Server.transform`: the module of a stylesheet, for the text that the server hands over.
- `Server.update`: which modules are out of date after a file has changed (`handleHotUpdate`).
-/

namespace Stylesheet

/-- Settings, and the stylesheets read under them: what a call of `terracePlugin` keeps. -/
structure Server where
  overrides : Overrides
  workspace : Workspace := .empty

namespace Server

/-- The name under which a server knows these modules. -/
def name : Text := "terrace"

/-- The phase in which a server asks for these modules: before its own. -/
def phase : Text := "pre"

/-- A module address without its query (`stripQuery`): what stands in front of the first question
mark behind which no line break follows. -/
def withoutQuery : Text → Text
  | [] => []
  | c :: t => if c = '?' ∧ t.any Text.isLineBreak = false then [] else c :: withoutQuery t

/-- Whether a path is that of a stylesheet: it ends in `STYLESHEET_EXTENSION`. -/
def isSheet (path : Text) : Bool := sheetExtension.isSuffixOf path

/-! ## Modules -/

/-- The module for an address and the text found there (`transform` of `terracePlugin`). Other files
than stylesheets have none. -/
def transform (fs : FileSystem) (server : Server) (code id : Text) : Response (Option Text) :=
  if isSheet (withoutQuery id) then
    let response := server.workspace.emitModule fs server.overrides code (withoutQuery id)
    match response.result with
    | .ok text => { response with result := .ok (some text) }
    | .error e =>
      -- The notice names the address with its query, although the module was made without.
      { response with result := .error e, notices := response.notices ++ [.failedModule id e] }
  else { result := .ok none, workspace := server.workspace, notices := [] }

/-! ## Changes -/

/-- The modules out of date after a change. -/
structure Invalidation (α : Type) where
  /-- All of them, each once. -/
  affected : List α
  /-- Those of other files, in the order in which they were found. -/
  invalidated : List α

/-- Takes note of a changed file (`handleHotUpdate`). Given the modules made from it, and for each
file the modules made from that, the answer tells which modules are out of date; there is none if
the file is no stylesheet or nothing imports it. -/
def update {α : Type} [DecidableEq α] (fs : FileSystem) (server : Server) (file : Text)
    (modules : List α) (modulesOf : Text → List α) : Option (Invalidation α) × Server :=
  let changed := withoutQuery file
  if isSheet changed then
    -- Who imports the file stays noted when it is forgotten, so the two steps may stand in this
    -- order.
    let workspace := server.workspace.forget fs (some changed)
    let importers := workspace.dependents fs changed
    let answer : Option (Invalidation α) :=
      if importers.isEmpty then none
      else
        let invalidated := importers.flatMap modulesOf
        -- A module may be made from several importers; it is invalidated for each and listed once.
        some ⟨(modules ++ invalidated).eraseDups, invalidated⟩
    (answer, { server with workspace })
  else (none, server)

end Server

end Stylesheet
