import Stylesheet.Text.Basic

/-!
# Quoted strings inside expressions

- `Quoting`: whether a reader stands inside a quoted string.
- `Quoting.next`: the same, one character later. Inside a string a backslash hides the character
  behind it, and only the mark that opened the string closes it.
-/

namespace Stylesheet

/-- Where a reader stands with respect to quoted strings. -/
inductive Quoting where
  | outside
  /-- Inside a string that `mark` closes. -/
  | inside (mark : Char)
  /-- Inside a string that `mark` closes, right behind a backslash. -/
  | escaped (mark : Char)
deriving DecidableEq, Repr

namespace Quoting

/-- Whether a character opens a string. -/
def isMark (c : Char) : Bool := c == '"' || c == '\x27'

/-- Where the reader stands behind the character `c`. -/
def next (c : Char) : Quoting → Quoting
  | .outside => if isMark c then .inside c else .outside
  | .inside mark =>
    if c = '\\' then .escaped mark else if c = mark then .outside else .inside mark
  | .escaped mark => .inside mark

end Quoting

end Stylesheet
