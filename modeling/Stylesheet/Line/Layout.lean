import Stylesheet.Line.Basic
import Stylesheet.Text.Cut

/-!
# From source text to lines

The first indentation of a document is the unit in which all others are measured.

- `PhysicalLine`: a line of a source, cut into its indentation and what it holds.
  `PhysicalLine.ofSource` gives those between the line breaks of a source.
- `Layout`: what the lines read so far say about indentation; `Layout.measure` gives the depth of
  one more line (`measureDepth`).
- `Line.ofSource`: the lines that are not blank, with their depths (`tokenize`). Blank lines are
  counted and nothing else is asked of them.
-/

namespace Stylesheet

/-! ## Physical lines -/

/-- A line of a source. -/
structure PhysicalLine where
  /-- The spaces and tabs in front. -/
  indentation : Text
  /-- The text between indentation and padding. -/
  content : Text
deriving DecidableEq, Repr

namespace PhysicalLine

/-- Cuts a line of text. -/
def ofText (t : Text) : PhysicalLine where
  indentation := t.takeWhile Indentation.isIndent
  content := Text.dropEndWhile Indentation.isPadding (t.dropWhile Indentation.isIndent)

/-- The texts between the line breaks of a source, without a byte order mark at its start. The
separators that end a line of text elsewhere do not end one here. -/
def texts (source : Text) : List Text :=
  Text.pieces '\n' (Text.unifyBreaks (if source.head? = some '\uFEFF' then source.tail else source))

/-- The lines of a source. -/
def ofSource (source : Text) : List PhysicalLine := (texts source).map ofText

/-- Whether the line holds nothing. Blanks other than padding are text. -/
def isBlank (line : PhysicalLine) : Bool := line.content.isEmpty

end PhysicalLine

/-! ## Layout -/

/-- What the lines read so far say about indentation: the variables `first` and `unit` of
`tokenize`. -/
inductive Layout where
  /-- No line has been read. -/
  | fresh
  /-- No line was indented. -/
  | flush
  /-- The first indentation was `unit`. -/
  | measured (unit : Text)
deriving DecidableEq, Repr

/-- The depth of a line that has the given indentation, and the layout with this line read
(`tokenize`, `measureDepth`). -/
def Layout.measure : Layout → Text → Except Cause (Layout × Nat)
  | .measured unit, indentation =>
    -- Written as often as it fits, the unit is compared as text: tabs and spaces are told apart.
    let depth := indentation.length / unit.length
    if Indentation.repeated unit depth = indentation then .ok (.measured unit, depth)
    else .error (.inconsistentIndentation indentation unit)
  | _, [] => .ok (.flush, 0)
  | .fresh, _ :: _ => .error .indentedStart
  | .flush, unit =>
    if Indentation.isMixed unit then .error .mixedIndentation else .ok (.measured unit, 1)

namespace Line

/-- The lines that are not blank among physical lines, the first of which stands `position` lines
behind the line with number `firstLine` (the loop of `tokenize`). -/
def ofPhysical (filename : Option Text) (firstLine : Int) :
    Layout → Nat → List PhysicalLine → Except SyntaxError (List Line)
  | _, _, [] => .ok []
  | layout, position, raw :: rest =>
    if raw.isBlank then ofPhysical filename firstLine layout (position + 1) rest
    else
      -- Each number is one rounded sum, so two lines may share a number from `2 ^ 53` on.
      let index := Number.plus firstLine position
      match layout.measure raw.indentation with
      | .error cause => .error (.atLine cause index)
      | .ok (layout, depth) =>
        (ofPhysical filename firstLine layout (position + 1) rest).map
          ({ text := raw.content, depth := depth, index := index,
             offset := raw.indentation.length, filename := filename } :: ·)

/-- The lines of a source that are not blank (`tokenize`). Lines are numbered from `firstLine`,
blank ones included. -/
def ofSource (source : Text) (firstLine : Int) (filename : Option Text) :
    Except SyntaxError (List Line) :=
  ofPhysical filename firstLine .fresh 0 (PhysicalLine.ofSource source)

end Line

end Stylesheet
