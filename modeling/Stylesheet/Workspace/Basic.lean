import Stylesheet.Document.Parse

/-!
# Workspaces

A workspace keeps the stylesheets read so far, so that none is read twice.

- `Workspace`: the stylesheets by path, and the paths that each of them imports (`TransformState`).
- `Workspace.load`: the stylesheet at a path, read only if the workspace does not hold it
  (`loadStylesheet`).
- `Workspace.record`: notes what a stylesheet imports, as `visit` inside `loadImportGraph` does.
- `Workspace.forget`: drops one stylesheet, or all of them, so that they are read again
  (`clearStylesheetCache`).
-/

namespace Stylesheet

/-- A document whose expressions are text. -/
abbrev Sheet := Document Expression

/-- The stylesheets read so far (`TransformState`). -/
structure Workspace where
  /-- The stylesheets by absolute path. -/
  sheets : Table Text Sheet
  /-- For an absolute path, the absolute paths that it imports directly. -/
  imports : Table Text (List Text)

namespace Workspace

/-- The workspace without stylesheets (`createTransformState`). -/
def empty : Workspace := ⟨.empty, .empty⟩

/-- The stylesheet at a path with which one was asked for at `site`, and the workspace that holds it
(`loadStylesheet`). A stylesheet is read as a file of its own, with lines counted from 1. -/
def load (fs : FileSystem) (overrides : Overrides) (workspace : Workspace) (path : Text)
    (site : Site) : Except SyntaxError (Sheet × Workspace) :=
  match workspace.sheets.get? path with
  | some sheet => .ok (sheet, workspace)
  | none =>
    match fs.read? path with
    -- An unreadable file is blamed where it is imported, a faulty one where it is faulty.
    | none => .error ⟨.unreadable path, site⟩
    | some source =>
      match Document.parse fs { overrides with filename := some path, line := none } source with
      | .error e => .error e
      | .ok sheet => .ok (sheet, { workspace with sheets := workspace.sheets.insert path sheet })

/-- The workspace in which the imports of the stylesheet at a path are noted, each once. What was
noted for the path before is replaced. -/
def record (workspace : Workspace) (path : Text) (imports : List Document.SheetImport) :
    Workspace :=
  { workspace with
    imports := workspace.imports.insert path (imports.map Document.SheetImport.path).eraseDups }

/-- The workspace without the stylesheet at a path, or without any if the path is missing or empty
(`clearStylesheetCache`). What they import stays noted. -/
def forget (fs : FileSystem) (workspace : Workspace) : Option Text → Workspace
  | none | some [] => { workspace with sheets := .empty }
  | some path => { workspace with sheets := workspace.sheets.erase (fs.resolve path) }

@[simp] theorem imports_forget (fs : FileSystem) (workspace : Workspace) (path? : Option Text) :
    (workspace.forget fs path?).imports = workspace.imports := by
  unfold forget
  split <;> rfl

theorem get?_sheets_forget {path : Text} (h : path ≠ []) (fs : FileSystem) (workspace : Workspace)
    (other : Text) :
    (workspace.forget fs (some path)).sheets.get? other =
      if fs.resolve path = other then none else workspace.sheets.get? other := by
  match path, h with
  | [], h => exact absurd rfl h
  | _ :: _, _ => exact Table.get?_erase _ _ _

/-- The paths whose stylesheets can be had: those that the workspace holds and those that the file
system does. -/
def known (fs : FileSystem) (workspace : Workspace) : List Text :=
  workspace.sheets.keys ++ fs.entries.keys

/-- A stylesheet that could be loaded was known, and all that loading it makes known is its path. -/
theorem known_load {fs : FileSystem} {overrides : Overrides} {workspace next : Workspace}
    {path : Text} {site : Site} {sheet : Sheet}
    (h : workspace.load fs overrides path site = .ok (sheet, next)) :
    path ∈ workspace.known fs ∧
      (next.known fs = workspace.known fs ∨
        next.known fs = workspace.sheets.keys ++ [path] ++ fs.entries.keys) := by
  unfold load at h
  split at h
  · rename_i held hheld
    cases h
    exact ⟨List.mem_append_left _ (Table.mem_keys_of_get? hheld), .inl rfl⟩
  · split at h
    · cases h
    · rename_i hread
      split at h
      · cases h
      · cases h
        refine ⟨List.mem_append_right _ (FileSystem.mem_keys_of_read? hread), ?_⟩
        simp only [known, Table.keys_insert]
        split
        · exact .inl rfl
        · exact .inr rfl

end Workspace

end Stylesheet
