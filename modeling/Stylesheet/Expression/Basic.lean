import Stylesheet.Expression.Quoting
import Stylesheet.Json
import Stylesheet.Site

/-!
# Raw expressions

An expression is kept as text for a later stage. Before that its brackets must match and its strings
must end (`parseRawExpression`).

- `Bracketing`: the brackets that are open at a place in an expression.
- `Expression.defect?`: what is wrong with the text of an expression, if anything is.
- `Expression.read`: the expression of a text without its outer blanks.
-/

namespace Stylesheet

/-! ## Brackets -/

/-- The brackets that are open at a place outside strings, the innermost first. -/
structure Bracketing where
  quoting : Quoting := .outside
  unclosed : List Char := []
deriving DecidableEq, Repr

namespace Bracketing

/-- Whether a character opens a bracket. -/
def isOpener (c : Char) : Bool := c == '(' || c == '['

/-- The opening bracket that a closing bracket belongs to (`CLOSERS`). -/
def opener? (c : Char) : Option Char :=
  if c = ')' then some '(' else if c = ']' then some '[' else none

/-- The brackets that are open behind the character `c`. A closing bracket that does not belong to
the innermost open one is given back. -/
def next (c : Char) : Bracketing → Except Char Bracketing
  | ⟨.outside, unclosed⟩ =>
    if isOpener c then .ok ⟨.outside, c :: unclosed⟩
    else
      match opener? c with
      | none => .ok ⟨Quoting.outside.next c, unclosed⟩
      | some opener =>
        -- With no bracket open there is no innermost one, and the closing bracket is given back as
        -- well.
        if unclosed.head? = some opener then .ok ⟨.outside, unclosed.tail⟩ else .error c
  -- Inside a string every character is text, brackets included.
  | ⟨quoting, unclosed⟩ => .ok ⟨quoting.next c, unclosed⟩

/-- The brackets that are open behind a text. -/
def after (start : Bracketing) (t : Text) : Except Char Bracketing :=
  t.foldlM (fun state c => state.next c) start

end Bracketing

/-! ## Expressions -/

/-- An expression that is kept as text (`RawExpression`). -/
structure Expression where
  text : Text
  site : Site
  /-- The column at which the expression was handed over. -/
  offset : Int
deriving DecidableEq, Repr

namespace Expression

/-- The record of an expression. -/
def toJson (e : Expression) : Json :=
  .object
    [("type", some (.text "raw")),
     ("text", some (.text e.text)),
     ("line", some (.number e.site.line)),
     ("offset", some (.number e.offset)),
     ("filename", e.site.filename.map .text)]

/-- What can be wrong with the text of an expression. -/
inductive Defect where
  | empty
  /-- A closing bracket that does not belong to the innermost open one. -/
  | unexpected (closer : Char)
  /-- The text ends inside a string. -/
  | unterminated
  /-- The innermost of the brackets that are open at the end. -/
  | unclosed (opener : Char)
deriving DecidableEq, Repr

/-- A defect of an expression in words. -/
def Defect.message (t : Text) : Defect → Text
  | .empty => "Expected expression."
  | .unexpected closer => "Unexpected \"" ++ [closer] ++ "\" in expression \"" ++ t ++ "\"."
  | .unterminated => "Unterminated string in expression \"" ++ t ++ "\"."
  | .unclosed opener => "Unclosed \"" ++ [opener] ++ "\" in expression \"" ++ t ++ "\"."

/-- What is wrong with a text that has no blanks at its ends. A closing bracket is blamed before
anything that is open at the end, and a string before a bracket. -/
def defect? (t : Text) : Option Defect :=
  if t.isEmpty then some .empty
  else
    match Bracketing.after {} t with
    | .error closer => some (.unexpected closer)
    | .ok ⟨.outside, []⟩ => none
    | .ok ⟨.outside, opener :: _⟩ => some (.unclosed opener)
    | .ok _ => some .unterminated

/-- The expression of a text, or a message that says what is wrong with it (`parseRawExpression`).
The column is the one that was handed over, whatever blanks are cut off. -/
def read (t : Text) (site : Site) (offset : Int) : Except Text Expression :=
  let t := Text.trim t
  match defect? t with
  | some defect => .error (defect.message t)
  | none => .ok { text := t, site := site, offset := offset }

end Expression

end Stylesheet
