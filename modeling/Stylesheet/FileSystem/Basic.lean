import Stylesheet.FileSystem.Path
import Stylesheet.Table

/-!
# File systems

- `FileSystem`: a working directory and the entries at absolute paths.
- `FileSystem.read?`: the content of a readable file. `read?_write` and `read?_remove` say what
  changing an entry does to it.
-/

namespace Stylesheet

/-- What a path of a file system holds. -/
inductive Entry where
  | file (content : Text)
  /-- A file that cannot be read. -/
  | locked
  | directory
deriving DecidableEq, Repr

/-- The content that can be read from an entry. -/
def Entry.content? : Entry → Option Text
  | .file content => some content
  | .locked | .directory => none

/-- A working directory, and entries at absolute paths. -/
structure FileSystem where
  working : Text
  entries : Table Text Entry

namespace FileSystem

/-- The absolute path that a path names: the key under which the cache and the import graph hold its
stylesheet. -/
def resolve (fs : FileSystem) (path : Text) : Text := Path.resolve fs.working [path]

/-- The content of the readable file at an absolute path. -/
def read? (fs : FileSystem) (path : Text) : Option Text :=
  (fs.entries.get? path).bind Entry.content?

/-- The file system with an entry put in place. -/
def write (fs : FileSystem) (path : Text) (entry : Entry) : FileSystem :=
  { fs with entries := fs.entries.insert path entry }

/-- The file system without an entry. -/
def remove (fs : FileSystem) (path : Text) : FileSystem :=
  { fs with entries := fs.entries.erase path }

theorem read?_write (fs : FileSystem) (path other : Text) (entry : Entry) :
    (fs.write path entry).read? other = if path = other then entry.content? else fs.read? other := by
  simp only [read?, write, Table.get?_insert]
  split <;> rfl

theorem read?_remove (fs : FileSystem) (path other : Text) :
    (fs.remove path).read? other = if path = other then none else fs.read? other := by
  simp only [read?, remove, Table.get?_erase]
  split <;> rfl

theorem mem_keys_of_read? {fs : FileSystem} {path content : Text}
    (h : fs.read? path = some content) : path ∈ fs.entries.keys := by
  obtain ⟨entry, hentry, -⟩ := Option.bind_eq_some_iff.1 h
  exact Table.mem_keys_of_get? hentry

end FileSystem

end Stylesheet
