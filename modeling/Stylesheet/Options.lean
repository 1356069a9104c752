import Stylesheet.FileSystem.Path
import Stylesheet.Json

/-!
# Options of a document

- `Options`: the settings that a document is read under (`ResolvedOptions`).
- `Options.searchPath`: where the imports of the document are looked for (`resolveImport`).
- `Overrides`: the settings that a caller gives (`ParseOptions`); `Overrides.resolve` fills in the
  defaults for the others (`resolveOptions`).
-/

namespace Stylesheet

/-- The settings that a document is read under (`ResolvedOptions`). -/
structure Options where
  /-- The name of the way in which the finished sheet is laid out. Reading only hands it on. -/
  style : Text
  /-- Directories in which imports are looked for, in this order. -/
  loadPaths : List Text
  /-- Directory for compiled output, which reading does not touch. -/
  precompiledLocation : Text
  /-- The document's file, if it has one. -/
  filename : Option Text
  /-- The number of the document's first line, if it is not 1. -/
  line : Option Int
deriving DecidableEq, Repr

/-- The settings that hold where a caller gives none (`DEFAULT_OPTIONS`). -/
def Options.default : Options where
  style := "nested"
  loadPaths := [['.']]
  precompiledLocation := "./.terrace-cache"
  filename := none
  line := none

/-- The number of the document's first line, as `parseStylesheetWith` hands it to `tokenize`. -/
def Options.firstLine (options : Options) : Int := options.line.getD 1

/-- The directories in which the document's imports are looked for (`resolveImport`): its own
directory if it has a file, and then the load paths. -/
def Options.searchPath (options : Options) : List Text :=
  match options.filename with
  -- An empty name is no file, so no directory belongs to it.
  | none | some [] => options.loadPaths
  | some filename => Path.dirname filename :: options.loadPaths

/-- The record of the settings. A file and a first line are left out where they are not given. -/
def Options.toJson (options : Options) : Json :=
  .object
    [("style", some (.text options.style)),
     ("loadPaths", some (.texts options.loadPaths)),
     ("precompiledLocation", some (.text options.precompiledLocation)),
     ("filename", options.filename.map .text),
     ("line", options.line.map .number)]

/-- The settings that a caller gives (`ParseOptions`); those left out take their defaults. -/
structure Overrides where
  style : Option Text := none
  loadPaths : Option (List Text) := none
  precompiledLocation : Option Text := none
  filename : Option Text := none
  line : Option Int := none
deriving DecidableEq, Repr

/-- The given settings, with the defaults for those that are not given (`resolveOptions`). -/
def Overrides.resolve (overrides : Overrides) : Options where
  style := overrides.style.getD Options.default.style
  loadPaths := overrides.loadPaths.getD Options.default.loadPaths
  precompiledLocation := overrides.precompiledLocation.getD Options.default.precompiledLocation
  filename := overrides.filename
  line := overrides.line

end Stylesheet
