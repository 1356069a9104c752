import Stylesheet.FileSystem.Basic

/-!
# Looking for an imported stylesheet

- `FileSystem.candidates`: the paths at which a name is looked for, in order. In each directory the
  partial, whose last segment starts with an underscore, comes before the stylesheet of that name.
- `FileSystem.find`: the first candidate that is a readable file (`findFileToImport`).
-/

namespace Stylesheet

/-- The extension of a stylesheet (`STYLESHEET_EXTENSION`). -/
def sheetExtension : Text := ".terrace"

/-- The extension of a plain style sheet, which is imported as it is (`CSS_EXTENSION`). -/
def cssExtension : Text := ".css"

namespace FileSystem

/-- Whether the file at an absolute path can be read (`isReadableFile`). -/
def isReadable (fs : FileSystem) (path : Text) : Bool := (fs.read? path).isSome

theorem isReadable_iff {fs : FileSystem} {path : Text} :
    fs.isReadable path = true ↔ ∃ content, fs.read? path = some content :=
  Option.isSome_iff_exists

/-- A file that is written can be read, and nothing else changes. -/
theorem isReadable_write (fs : FileSystem) (path other content : Text) :
    (fs.write path (.file content)).isReadable other =
      if path = other then true else fs.isReadable other := by
  unfold isReadable
  rw [read?_write]
  split <;> rfl

/-- A name with the extension of a stylesheet, which is added if it is missing. -/
def sheetName (name : Text) : Text :=
  if sheetExtension.isSuffixOf name then name else name ++ sheetExtension

/-- The absolute paths at which a name is looked for, in order (`findFileToImport`). -/
def candidates (fs : FileSystem) (name : Text) (directories : List Text) : List Text :=
  directories.flatMap (fun directory =>
    -- An absolute name leaves the directory, so every directory gives the same two paths.
    [Path.partialName (sheetName name), sheetName name].map
      (fun path => Path.resolve fs.working [directory, path]))

/-- The stylesheet that a name stands for, or a message that there is none (`findFileToImport`). The
name of a plain style sheet stands for itself. -/
def find (fs : FileSystem) (name : Text) (directories : List Text) : Except Text Text :=
  if cssExtension.isSuffixOf name then .ok name
  else
    match (fs.candidates name directories).find? fs.isReadable with
    | some path => .ok path
    | none => .error ("File to import not found or unreadable: " ++ name ++ ".")

end FileSystem

end Stylesheet
