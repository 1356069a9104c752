import Stylesheet.Construct.Attribute
import Stylesheet.Construct.Directive
import Stylesheet.Construct.Loop
import Stylesheet.Construct.Mixin
import Stylesheet.Line.Basic

/-!
# Reading a line

What a line says is told by its first character, before any expression is read and any import is
looked for.

- `Reading`: what a line says, with slots where its expressions stand.
- `Mark`: the first characters that have a meaning (`LINE_HANDLERS`); `Reading.ofMark` reads a line
  that has one, and `Reading.ofPlain` a line that has none (`classifyPlainLine`).
- `Reading.ofLine`: reads any line (`classifyLine`).
-/

namespace Stylesheet

/-- What a line says, with its expressions and imports still to be read. The handlers read them on
the way; here that is left to `Reading.resolve`. -/
inductive Reading where
  | construct (c : Construct Slot)
  /-- A definition of a mixin, with its parameters or what is wrong with them. -/
  | definition (name : Text) (parameters : List (Except Cause (Parameter Slot)))
  | imports (entries : List ImportEntry)
  /-- A branch that goes on with the condition in front of it. -/
  | branch (test : Option Slot)

/-! ## Marks -/

/-- A first character that tells what a line says: a key of `LINE_HANDLERS`. -/
inductive Mark where
  | binding
  | mixinInclude
  | comment
  | attribute
  | definition
  | directive
  | escape
deriving DecidableEq, Repr

namespace Mark

/-- The character of a mark. -/
def char : Mark → Char
  | .binding => Variable.mark
  | .mixinInclude => '+'
  | .comment => '/'
  | .attribute => ':'
  | .definition => '='
  | .directive => '@'
  | .escape => '\\'

/-- All marks, in the order of their characters. -/
def all : List Mark :=
  [.binding, .mixinInclude, .comment, .attribute, .definition, .directive, .escape]

/-- The mark that a character is. -/
def ofChar? (c : Char) : Option Mark := all.find? (fun mark => mark.char == c)

theorem ofChar?_char (mark : Mark) : ofChar? mark.char = some mark := by
  cases mark <;> decide

end Mark

namespace Reading

/-- A rule of one selector. -/
def rule (selector : Text) : Reading := .construct (.rule [selector])

/-- The construct that a line was read as, or else an error on the line. -/
def ofConstruct? (line : Line) (cause : Cause) :
    Option (Construct Slot) → Except SyntaxError Reading
  | some c => .ok (.construct c)
  | none => .error (line.fault cause)

/-! ## Lines without a mark -/

/-- Reads a line that has no mark: an attribute or a rule (`classifyPlainLine`). -/
def ofPlain (line : Line) : Except SyntaxError Reading :=
  -- A line taken for an attribute never becomes a rule: if it cannot be read as one, that is an
  -- error.
  if Attribute.isInline line.text then
    ofConstruct? line (.invalidAttribute line.text) (Attribute.inline? line.text)
  else .ok (rule line.text)

/-! ## Lines with a mark -/

/-- Reads an attribute with a colon in front. A second colon makes it a rule, as in `::before`. -/
def ofAttribute (line : Line) : Except SyntaxError Reading :=
  if Text.secondUnit line.text = some ':' then .ok (rule line.text)
  else ofConstruct? line (.invalidAttribute line.text) (Attribute.prefixed? line.text)

/-- Reads a line that gives a variable a value (`parseVariable`). -/
def ofBinding (line : Line) : Except SyntaxError Reading := do
  line.forbidNesting .binding
  ofConstruct? line (.invalidBinding line.text) (Variable.binding? line.text)

/-- Reads a comment, whose body are the lines beneath it (`parseComment`, `flattenText`). A second
slash makes it silent; without a second slash or an asterisk the line is a rule. -/
def ofComment (line : Line) : Except SyntaxError Reading :=
  match Text.secondUnit line.text with
  | some '/' => .ok (.construct (.comment line.text true (Line.forestTexts line.children)))
  | some '*' => .ok (.construct (.comment line.text false (Line.forestTexts line.children)))
  | _ => .ok (rule line.text)

/-- Reads a definition of a mixin (`parseMixinDefinition`). -/
def ofDefinition (line : Line) : Except SyntaxError Reading :=
  match Mixin.head? '=' line.text with
  | some (name, entries) => .ok (.definition name (Mixin.parameters false entries))
  | none => .error (line.fault (.invalidMixin (Text.dropUnit line.text)))

/-- Reads an include of a mixin (`parseMixinInclude`). A sign that stands alone is a rule. -/
def ofInclude (line : Line) : Except SyntaxError Reading :=
  if line.text.units = 1 then .ok (rule line.text)
  else do
    -- Lines beneath the include are blamed before its own text is.
    line.forbidNesting .mixinInclude
    match Mixin.head? '+' line.text with
    | none => .error (line.fault (.invalidInclude line.text))
    | some (name, arguments) =>
      if arguments.any (fun argument => argument.text.isEmpty) then
        .error (line.fault .emptyArgument)
      else .ok (.construct (.mixinInclude name arguments))

/-! ## Directives -/

/-- The expression of a directive that needs one (`requireExpression`). -/
def required (line : Line) (directive : Directive) : Except SyntaxError Slot :=
  match directive.value with
  | none | some [] => .error (line.fault (.missingExpression directive.keyword))
  | some value => .ok ⟨value, directive.column⟩

/-- Reads an import (`parseImport`). -/
def ofImport (line : Line) (directive : Directive) : Except SyntaxError Reading :=
  match directive.value with
  | none | some [] => .error (line.fault .missingImport)
  | some value => do
    -- Here the lines beneath come second: an import of nothing is blamed first.
    line.forbidNesting .importDirective
    return .imports (Import.entries value)

/-- Reads an alternative branch (`parseElse`). -/
def ofAlternative (afterConditional : Bool) (line : Line) (directive : Directive) :
    Except SyntaxError Reading :=
  if !afterConditional then .error (line.fault .misplacedElse)
  else
    match directive.value with
    | none | some [] => .ok (.branch none)
    | some value =>
      match Alternative.test? value with
      | none => .error (line.fault (.invalidElse value))
      | some test =>
        .ok (.branch (some ⟨test, directive.column + (value.units - test.units : Int)⟩))

/-- Reads a directive (`classifyDirective`). One whose keyword has no meaning is kept as text. -/
def ofDirective (afterConditional : Bool) (line : Line) : Except SyntaxError Reading :=
  let directive := Directive.ofText line.text
  match Keyword.ofText? directive.keyword with
  | none => .ok (.construct (.directive line.text))
  | some .importing => ofImport line directive
  | some .alternative => ofAlternative afterConditional line directive
  | some .loop =>
    match Loop.read line.text directive.column (directive.value.getD []) with
    | .ok c => .ok (.construct c)
    | .error cause => .error (line.fault cause)
  | some .repetition => do
    let test ← required line directive
    return .construct (.whileLoop test)
  | some .condition => do
    let test ← required line directive
    return .construct (.conditional (some test))
  | some .debug => do
    -- The expression is asked for before the lines beneath are looked at.
    let value ← required line directive
    line.forbidNesting .debugDirective
    return .construct (.debug value)

/-! ## All lines -/

/-- Reads a line by a mark, whatever the line starts with (`LINE_HANDLERS`). -/
def ofMark (afterConditional : Bool) (line : Line) : Mark → Except SyntaxError Reading
  | .binding => ofBinding line
  | .mixinInclude => ofInclude line
  | .comment => ofComment line
  | .attribute => ofAttribute line
  | .definition => ofDefinition line
  | .directive => ofDirective afterConditional line
  -- What follows the backslash is a selector, even if it starts with a mark.
  | .escape => .ok (rule (Text.dropUnit line.text))

/-- Reads a line (`classifyLine`). An alternative branch may only follow a condition. -/
def ofLine (afterConditional : Bool) (line : Line) : Except SyntaxError Reading :=
  match line.text.head?.bind Mark.ofChar? with
  | some mark => ofMark afterConditional line mark
  | none => ofPlain line

end Reading

end Stylesheet
