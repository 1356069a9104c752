import Stylesheet.SyntaxError

/-!
# Lines

- `Line`: a line of a document that is not blank, reduced to its text and its depth, with the lines
  nested beneath it (`LogicalLine`).
- `Line.texts`: the texts of a forest of lines, each line before those beneath it (`flattenText`).
-/

namespace Stylesheet

/-- A line that is not blank (`LogicalLine`). -/
structure Line where
  /-- The text without indentation and padding. -/
  text : Text
  /-- The number of indentation units in front of the text. -/
  depth : Int := 0
  /-- The line's number. -/
  index : Int
  /-- The column of the first character of the text. -/
  offset : Int := 0
  filename : Option Text := none
  /-- The lines nested one level deeper. -/
  children : List Line := []
deriving Inhabited

namespace Line

/-- Where the line stands. -/
def site (line : Line) : Site := ⟨line.index, line.filename⟩

/-- An error on this line (`fail`). -/
def fault (line : Line) (cause : Cause) : SyntaxError := .atLine cause line.index

/-- Fails on the first nested line if there is one (`forbidChildren`). -/
def forbidNesting (line : Line) (parent : Childless) : Except SyntaxError Unit :=
  match line.children with
  | [] => .ok ()
  | nested :: _ => .error (nested.fault (.illegalNesting parent))

mutual

/-- The texts of a line and of all lines beneath it (`flattenText`). -/
def texts : Line → List Text
  | ⟨text, _, _, _, _, children⟩ => text :: forestTexts children

/-- The texts of all lines of a forest. -/
def forestTexts : List Line → List Text
  | [] => []
  | line :: lines => texts line ++ forestTexts lines

end

end Line

end Stylesheet
