import Stylesheet.SyntaxError
import Stylesheet.Text.Cut

/-!
# Notices

- `Notice`: what a user of a workspace is told besides its answers: the warnings of
  `loadImportGraph` and the failures of `terracePlugin`. `Notice.message` puts a notice into words.
-/

namespace Stylesheet

/-- What a user of a workspace is told besides its answers. -/
inductive Notice where
  /-- The last path of the chain is one of those before it. The site is that of the import that
  closes the circle. -/
  | circularImport (site : Option Site) (chain : List Text)
  /-- A module could not be made. -/
  | failedModule (id : Text) (error : SyntaxError)
deriving DecidableEq, Repr

namespace Notice

/-- Whether the notice is about a failure, and not just a warning. -/
def isFailure : Notice → Bool
  | .circularImport _ _ => false
  | .failedModule _ _ => true

/-- A notice in words. -/
def message : Notice → Text
  | .circularImport site chain =>
    -- Only the visit to the entry has no site, and it never closes a circle: its chain is empty.
    "[terrace]" ++ (site.map Site.reference).getD [] ++ " Circular @import: " ++
      Text.join " -> " chain ++ ". Skipping."
  | .failedModule id error =>
    "[terrace]" ++ error.location ++ " Parse failed for " ++ id ++ ": " ++ error.message

end Notice

end Stylesheet
