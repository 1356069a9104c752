import Stylesheet.Node.Encoding
import Stylesheet.Workspace.Graph

/-!
# Stylesheets as modules

- `moduleText`: a module of two statements, one for the stylesheets that a sheet reaches and one for
  the sheet.
- `Workspace.emitModule`: the module of a stylesheet whose text is given
  (`transformStylesheetModule`).
-/

namespace Stylesheet

/-- The value of a stylesheet. -/
def Document.sheetJson (sheet : Sheet) : Json := sheet.toJson Expression.toJson

/-- The text of a module that exports a sheet and the sheets that it reaches
(`transformStylesheetModule`). The object of these arranges its fields, so a sheet whose path reads
as a place comes in front of the others. -/
def moduleText (imports : List (Text × Sheet)) (sheet : Sheet) : Text :=
  "export const imports = " ++
    Json.render
      (.record (Json.arranged (imports.map (fun (path, imported) => (path, imported.sheetJson))))) ++
    ";\nexport default " ++ Json.render sheet.sheetJson ++ ";\n"

/-- The module of the stylesheet at the path `id`, whose text is given and not read from its file
(`transformStylesheetModule`). All that it reaches is visited. -/
def Workspace.emitModule (fs : FileSystem) (overrides : Overrides) (workspace : Workspace)
    (code id : Text) : Response Text :=
  let path := fs.resolve id
  match Document.parse fs { overrides with filename := some path } code with
  -- A text that cannot be read leaves the workspace alone, with an older sheet at the path if it
  -- has one.
  | .error e => { result := .error e, workspace, notices := [] }
  | .ok sheet =>
    let response :=
      { workspace with sheets := workspace.sheets.insert path sheet }.explore fs overrides path
    { response with
      result := response.result.map fun graph =>
        moduleText (graph.entries.filter (fun entry => entry.1 != path)) sheet }

end Stylesheet
