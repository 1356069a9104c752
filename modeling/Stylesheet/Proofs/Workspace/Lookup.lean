import Stylesheet.Proofs.Success
import Stylesheet.Workspace.Basic

/-!
# Looking up stylesheets

Loading a stylesheet gives an answer and may change the workspace. The answer is the same before and
after stylesheets have been loaded.

- `Workspace.readSheet`: the stylesheet that a file of a given text is read as.
- `Workspace.lookup`: the answer of `Workspace.load`: the stylesheet that the workspace holds, or
  else the one that the file is read as.
- `Workspace.keep`: the workspace that `Workspace.load` leaves behind; `load_eq` takes the two
  together.
- `lookup_keep`: keeping a stylesheet that was looked up changes no answer.
- `Workspace.targets`: the paths that the stylesheet at a path imports.
-/

namespace Stylesheet.Workspace

variable {fs : FileSystem} {overrides : Overrides} {workspace : Workspace} {path other : Text}
  {site : Site} {sheet : Sheet}

/-- The stylesheet that a file of a given text is read as. -/
def readSheet (fs : FileSystem) (overrides : Overrides) (path source : Text) :
    Except SyntaxError Sheet :=
  Document.parse fs { overrides with filename := some path, line := none } source

/-- The stylesheet that the workspace holds for a path, or else the one that the file there is read
as. -/
def lookup (fs : FileSystem) (overrides : Overrides) (workspace : Workspace) (path : Text)
    (site : Site) : Except SyntaxError Sheet :=
  match workspace.sheets.get? path with
  | some sheet => .ok sheet
  | none =>
    match fs.read? path with
    | none => .error ⟨.unreadable path, site⟩
    | some source => readSheet fs overrides path source

/-- The workspace that holds a stylesheet, unless it has one at the path already. -/
def keep (workspace : Workspace) (path : Text) (sheet : Sheet) : Workspace :=
  match workspace.sheets.get? path with
  | some _ => workspace
  | none => { workspace with sheets := workspace.sheets.insert path sheet }

/-- The paths that the stylesheet at a path imports, in their order. -/
def targets (fs : FileSystem) (overrides : Overrides) (workspace : Workspace) (path : Text) :
    List Text :=
  match workspace.lookup fs overrides path ⟨1, none⟩ with
  | .error _ => []
  | .ok sheet => sheet.imports.map Document.SheetImport.path

/-! ## Answers -/

/-- A stylesheet is the one that is held, or else the one that its file is read as. -/
theorem lookup_eq_ok :
    workspace.lookup fs overrides path site = .ok sheet ↔
      workspace.sheets.get? path = some sheet ∨
        workspace.sheets.get? path = none ∧
          ∃ source, fs.read? path = some source ∧ readSheet fs overrides path source = .ok sheet := by
  unfold lookup
  cases workspace.sheets.get? path with
  | some held => simp
  | none => cases fs.read? path <;> simp

theorem lookup_of_get? (h : workspace.sheets.get? path = some sheet) (site : Site) :
    workspace.lookup fs overrides path site = .ok sheet :=
  lookup_eq_ok.mpr (.inl h)

/-- An answer does not depend on where the stylesheet is asked for. -/
theorem lookup_site (h : workspace.lookup fs overrides path site = .ok sheet) (site' : Site) :
    workspace.lookup fs overrides path site' = .ok sheet :=
  lookup_eq_ok.mpr (lookup_eq_ok.mp h)

/-- A stylesheet leads to the paths that it imports. -/
theorem targets_of_lookup (h : workspace.lookup fs overrides path site = .ok sheet) :
    workspace.targets fs overrides path = sheet.imports.map Document.SheetImport.path := by
  unfold targets
  rw [lookup_site h]

/-- Workspaces that hold the same stylesheets give the same answers. -/
theorem lookup_congr {workspace' : Workspace}
    (h : workspace.sheets.get? path = workspace'.sheets.get? path) (site : Site) :
    workspace.lookup fs overrides path site = workspace'.lookup fs overrides path site := by
  unfold lookup
  rw [h]

/-! ## Loading -/

/-- Loading answers with the stylesheet looked up, and keeps it. -/
theorem load_eq (path : Text) (site : Site) :
    workspace.load fs overrides path site =
      (workspace.lookup fs overrides path site).map
        fun sheet => (sheet, workspace.keep path sheet) := by
  unfold load lookup keep
  cases workspace.sheets.get? path with
  | some held => rfl
  | none =>
    cases fs.read? path with
    | none => rfl
    | some source =>
      show (match readSheet fs overrides path source with
        | .error e => .error e
        | .ok sheet => .ok (sheet, _)) = (readSheet fs overrides path source).map _
      cases readSheet fs overrides path source <;> rfl

@[simp] theorem imports_keep : (workspace.keep path sheet).imports = workspace.imports := by
  unfold keep
  cases workspace.sheets.get? path <;> rfl

/-- Only the stylesheet that was asked for is put in. -/
theorem get?_keep (h : workspace.lookup fs overrides path site = .ok sheet) (other : Text) :
    (workspace.keep path sheet).sheets.get? other =
      if path = other then some sheet else workspace.sheets.get? other := by
  rcases lookup_eq_ok.mp h with hheld | ⟨hnone, -⟩
  · have hsame : workspace.keep path sheet = workspace := by
      unfold keep
      rw [hheld]
    rw [hsame]
    by_cases heq : path = other
    · rw [if_pos heq, ← heq, hheld]
    · rw [if_neg heq]
  · have hinsert : workspace.keep path sheet =
        { workspace with sheets := workspace.sheets.insert path sheet } := by
      unfold keep
      rw [hnone]
    rw [hinsert]
    exact Table.get?_insert _ _ _ _

/-- Keeping a stylesheet that was looked up changes no answer. -/
theorem lookup_keep (h : workspace.lookup fs overrides path site = .ok sheet)
    (other : Text) (site' : Site) :
    (workspace.keep path sheet).lookup fs overrides other site' =
      workspace.lookup fs overrides other site' := by
  by_cases heq : path = other
  · have hkept : (workspace.keep path sheet).sheets.get? other = some sheet := by
      rw [get?_keep h, if_pos heq]
    rw [lookup_of_get? hkept, ← heq, lookup_site h]
  · exact lookup_congr (by rw [get?_keep h, if_neg heq]) site'

/-! ## Noting imports -/

theorem get?_imports_record (imports : List Document.SheetImport) (other : Text) :
    (workspace.record path imports).imports.get? other =
      if path = other then some (imports.map Document.SheetImport.path).eraseDups
      else workspace.imports.get? other :=
  Table.get?_insert _ _ _ _

end Stylesheet.Workspace
