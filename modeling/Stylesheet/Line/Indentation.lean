import Stylesheet.Text.Decimal
import Stylesheet.Text.Quoted

/-!
# Indentation

Only spaces and tabs indent a line; blanks of other kinds belong to its text.

- `Indentation.describe`: an indentation in words, such as "2 spaces" or "1 tab was"
  (`humanIndentation`).
- `Indentation.isMixed`: whether spaces and tabs both occur.
- `Indentation.repeated`: an indentation written several times over.
-/

namespace Stylesheet.Indentation

/-- Whether a character indents (`INDENTATION`). -/
def isIndent (c : Char) : Bool := c == ' ' || c == '\t'

/-- Whether a character is padding at the end of a line (`TRAILING_SPACE`): a space, a tab, a form
feed or a vertical tab. -/
def isPadding (c : Char) : Bool := c == ' ' || c == '\t' || c == '\x0c' || c == '\x0b'

/-- Whether characters of two kinds occur. -/
def isMixed : Text → Bool
  | [] => false
  | c :: t => t.any (· != c)

/-- A unit of indentation written `n` times. -/
def repeated (unit : Text) (n : Nat) : Text := (List.replicate n unit).flatten

/-- An amount of one kind of character, such as "1 tab" or "4 spaces were". -/
def amount (noun : Text) (n : Nat) (past : Bool) : Text :=
  Text.ofInt n ++ " " ++ noun ++ (if n = 1 then "" else "s") ++
    (if past then (if n = 1 then " was" else " were") else "")

/-- An indentation in words, with the verb "was" or "were" behind it if `past` (`humanIndentation`).
One that mixes tabs and spaces is quoted; any text without a tab counts as spaces. -/
def describe (past : Bool) (indentation : Text) : Text :=
  if !indentation.contains '\t' then amount "space" indentation.units past
  else if !indentation.contains ' ' then amount "tab" indentation.units past
  else Text.quote indentation ++ (if past then " was" else "")

end Stylesheet.Indentation
