import Stylesheet.Document.Assembly
import Stylesheet.Line.Layout
import Stylesheet.Line.Nesting

/-!
# Reading a document

- `Document.parseWith`: reads a source with given services (`parseStylesheetWith`). An error names
  the document's file.
- `Document.parse`: the same with the standard services (`parseStylesheet`).
- `Document.imports`: the stylesheets that a document imports (`collectFileImports`).
-/

namespace Stylesheet.Document

variable {σ E : Type}

/-- The nodes of a source: cut into lines, nested, and read (`tokenize`, `buildLineTree`,
`appendChildren`). -/
def nodes (services : Services σ E) (options : Options) (source : Text) :
    Parsing σ (List (Node E)) := do
  let lines ← Line.ofSource source options.firstLine options.filename
  -- The first line stands at the depth 0, so one level takes in all lines.
  let (forest, _) ← Line.nest lines 0
  let siblings ← Assembly.forest services options.searchPath true {} forest
  siblings.finish

/-- Reads a source with the given services and settings (`parseStylesheetWith`). -/
def parseWith (services : Services σ E) (overrides : Overrides) (source : Text) :
    Parsing σ (Document E) :=
  let options := overrides.resolve
  ExceptT.adapt (SyntaxError.inFile options.filename) do
    return ⟨← nodes services options source, options⟩

/-- Reads a source; expressions are kept as text, and imports are looked for in a file system
(`parseStylesheet`). -/
def parse (fs : FileSystem) (overrides : Overrides) (source : Text) :
    Except SyntaxError (Document Expression) :=
  (parseWith (σ := Unit) (.standard fs) overrides source |>.run ()).1

/-! ## Imports -/

/-- An import of another stylesheet: its path, and where it stands. -/
structure SheetImport where
  path : Text
  site : Site
deriving DecidableEq, Repr

/-- The imports of other stylesheets in a document, in their order (`collectFileImports`). Only
nodes at the root are looked at: imports stand nowhere else. -/
def imports (document : Document E) : List SheetImport :=
  document.children.filterMap fun node =>
    match node.construct with
    | .fileImport path => some ⟨path, node.site⟩
    | _ => none

end Stylesheet.Document
