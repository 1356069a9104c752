import Stylesheet.Construct.Basic

/-!
# Variables

A variable is written `!name`, and takes a value by `!name = value` or `!name ||= value`.

- `Variable.isName`, `Variable.isReference`: the names of variables, without and with their mark
  (`VARIABLE_NAME`).
- `Variable.binding?`: reads a line that gives a variable a value (`VARIABLE_BINDING`).
-/

namespace Stylesheet.Variable

/-- The mark in front of the name of a variable (`VARIABLE_CHAR`). -/
def mark : Char := '!'

/-- Whether a text is a name: a letter or an underscore, and then word characters. -/
def isName : Text → Bool
  | [] => false
  | c :: t => Text.isWordStart c && t.all Text.isWord

/-- Whether a text is a name with the mark in front (`VARIABLE_NAME`). -/
def isReference : Text → Bool
  | [] => false
  | c :: t => c == mark && isName t

/-- The name in front of a text, behind the mark, and what follows it. -/
def name? : Text → Option (Text × Text)
  | [] => none
  | c :: t =>
    let name := t.takeWhile Text.isWord
    if c = mark ∧ isName name = true then some (name, t.dropWhile Text.isWord) else none

/-- What stands behind the sign of a binding, and whether the binding is guarded. -/
def sign? : Text → Option (Bool × Text)
  | '|' :: '|' :: '=' :: t => some (true, t)
  | '=' :: t => some (false, t)
  | _ => none

/-- The value behind the sign of a binding, up to the first line break. A value of nothing but
blanks is the last of them that is no line break, with the blanks behind it. -/
def value? (t : Text) : Option Text :=
  -- Blanks are given back until something is left that does not start with a line break.
  ((Text.blankCuts 0 t).find? (fun (_, rest) => Text.startsVisible rest)).map
    (fun (_, rest) => Text.visible rest)

/-- Reads a line such as `!name = value` or `!name ||= value` (`VARIABLE_BINDING`). -/
def binding? (line : Text) : Option (Construct Slot) := do
  let (name, rest) ← name? line
  let (guarded, rest) ← sign? (Text.trimStart rest)
  let value ← value? rest
  return .binding name (.atEnd line value) guarded

end Stylesheet.Variable
