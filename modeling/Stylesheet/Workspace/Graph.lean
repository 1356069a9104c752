import Stylesheet.Workspace.Traversal

/-!
# The import graph of a stylesheet

- `Response`: what an operation on a workspace leaves behind.
- `Workspace.explore`: visits a stylesheet and all that it reaches (`loadImportGraph`).
-/

namespace Stylesheet

/-- What an operation on a workspace leaves behind, whether it succeeds or not. -/
structure Response (α : Type) where
  result : Except SyntaxError α
  workspace : Workspace
  notices : List Notice

/-- Visits a stylesheet and all that it reaches (`loadImportGraph`). The answer holds them in
visiting order. -/
def Workspace.explore (fs : FileSystem) (overrides : Overrides) (workspace : Workspace)
    (entry : Text) : Response (Table Text Sheet) :=
  let (result, t) := Traversal.run fs overrides [{ path := fs.resolve entry }] { workspace }
  -- What was read and noted before a failure stays in the workspace.
  { result := result.map (fun _ => t.graph), workspace := t.workspace, notices := t.notices }

end Stylesheet
