import Stylesheet.Text.Cut

/-!
# Paths

Paths are texts whose segments stand between slashes.

- `Path.resolve`: the absolute path that a sequence of paths leads to, each taken from where the one
  before it ends.
- `Path.dirname`: a path without its last segment.
- `Path.partialName`: a path whose last segment starts with an underscore.
-/

namespace Stylesheet.Path

/-- Whether a path starts at the root. -/
def isAbsolute (path : Text) : Bool := path.head? == some '/'

/-! ## Absolute paths -/

/-- Goes one segment on from a directory that is given by its segments, the last one first. Two dots
lead to the directory above, of which the root has none. -/
def step (directory : List Text) (segment : Text) : List Text :=
  if segment = [] ∨ segment = ['.'] then directory
  -- The root is the empty list, whose tail is empty again.
  else if segment = ['.', '.'] then directory.tail
  else segment :: directory

/-- The absolute path without empty segments and dots that a path names. -/
def normalize (path : Text) : Text :=
  '/' :: Text.join ['/'] ((Text.pieces '/' path).foldl step []).reverse

/-- Follows a path from a directory: an absolute path starts anew. -/
def follow (directory path : Text) : Text :=
  if isAbsolute path then path else directory ++ '/' :: path

/-- The absolute path that is reached from the working directory by following paths in turn. -/
def resolve (working : Text) (paths : List Text) : Text :=
  normalize (paths.foldl follow working)

/-! ## Parts of a path -/

/-- A path without its last segment and the slash in front of it. Slashes at the end do not count,
and of several slashes in front of the last segment all but one stay; two slashes at the start of a
path both stay. A path of one segment lies in the root or in the current directory. -/
def dirname : Text → Text
  | [] => ['.']
  | first :: rest =>
    match Text.dropEndWhile (· != '/') (Text.dropEndWhile (· == '/') rest) with
    | [] => if first = '/' then ['/'] else ['.']
    | parent => if first = '/' ∧ parent = ['/'] then ['/', '/'] else first :: parent.dropLast

/-- A path whose last segment has an underscore put in front. -/
def partialName (path : Text) : Text :=
  Text.dropEndWhile (· != '/') path ++ '_' :: (path.reverse.takeWhile (· != '/')).reverse

end Stylesheet.Path
