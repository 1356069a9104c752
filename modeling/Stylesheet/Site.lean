import Stylesheet.Text.Decimal

/-!
# Sites

- `Site`: a place in a document, given by a line number and the file if it is known.
- `Site.location`: how a site is named in the message of an error, as `TerraceSyntaxError.location`
  names it.
- `Site.reference`: how it is named in a warning, as `visit` inside `loadImportGraph` names it.
-/

namespace Stylesheet

/-- A line of a document, and the document's file if it is known. -/
structure Site where
  line : Int
  filename : Option Text
deriving DecidableEq, Repr

/-- A site in parentheses, after a space (`TerraceSyntaxError.location`). A file without a name
counts as unknown. -/
def Site.location (site : Site) : Text :=
  match site.filename with
  | none | some [] => " (line " ++ Text.ofInt site.line ++ ")"
  | some filename => " (" ++ filename ++ ":" ++ Text.ofInt site.line ++ ")"

/-- A site in parentheses, after a space, with its file however it is named (`visit` in
`loadImportGraph`). A word stands for a file that is not known. -/
def Site.reference (site : Site) : Text :=
  -- Unlike `location`, this looks neither at an empty name nor for a wording without a file.
  " (" ++ site.filename.getD "undefined" ++ ":" ++ Text.ofInt site.line ++ ")"

end Stylesheet
