import Stylesheet.Construct.Arguments
import Stylesheet.Construct.Variable
import Stylesheet.SyntaxError

/-!
# Mixins

A mixin is defined by `=name(!a, !b = 2)` and included by `+name(1, 2)`.

- `Mixin.head?`: the name and the argument list of such a line (`MIXIN_DEFINITION`,
  `MIXIN_INCLUDE`).
- `Mixin.parameters`: the entries of the argument list of a definition, each a parameter or what is
  wrong with it (`parseMixinDefinition`).
-/

namespace Stylesheet.Mixin

/-- Whether a name may start with the text: it is not empty and no bracket opens at once. -/
def startsName : Text → Bool
  | [] => false
  | c :: _ => c != '('

/-- The text behind the mark of a line, cut in front of the first bracket. Blanks in front do not
count, unless nothing else is left to name the mixin: then the last of them does. The second part
may not hold a line break. -/
def cut? (t : Text) : Option (Text × Text) := do
  -- A blank that is given back becomes the whole name, which trimming then empties.
  let (_, t) ← (Text.blankCuts 0 t).find? (fun (_, rest) => startsName rest)
  let rest := t.dropWhile (· != '(')
  if rest.any Text.isLineBreak then none else some (t.takeWhile (· != '('), rest)

/-- The name and the arguments of a line that starts with `mark` (`parseMixinDefinition`,
`parseMixinInclude`). -/
def head? (mark : Char) (line : Text) : Option (Text × List Slot) :=
  match line with
  | [] => none
  | c :: t => do
    if c ≠ mark then none
    let (name, rest) ← cut? t
    -- The bracket is the first one of the line: a name cannot hold one.
    let arguments ← Arguments.split? ((line.units : Int) - rest.units) rest
    return (Text.trim name, arguments)

/-! ## Definitions -/

/-- The name of a parameter and its default, which stands behind the first equals sign. -/
def splitDefault (t : Text) : Text × Option Text :=
  match t.dropWhile (· != '=') with
  | [] => (t, none)
  | _ :: value => (Text.trimEnd (t.takeWhile (· != '=')), some (Text.trimStart value))

/-- The parameter of one entry of a definition (`parseMixinDefinition`). If `optional`, an entry in
front of it had a default. -/
def parameter (optional : Bool) (entry : Slot) : Except Cause (Parameter Slot) :=
  let (name, value) := splitDefault entry.text
  -- The order of the tests decides which message a faulty entry gets.
  if entry.text.isEmpty || entry.text == [Variable.mark] then .error .emptyArgument
  else if entry.text.head? ≠ some Variable.mark then .error (.unmarkedParameter entry.text)
  else if !Variable.isReference name then .error (.invalidVariable name)
  else if optional && value.isNone then .error (.requiredAfterOptional name)
  else
    .ok ⟨name.tail, value.map (fun v =>
      ⟨v, entry.column + (Text.units entry.text - Text.units v : Int)⟩)⟩

/-- The parameters of a definition. All of them are read, also behind a faulty one. -/
def parameters (optional : Bool) : List Slot → List (Except Cause (Parameter Slot))
  | [] => []
  | entry :: entries =>
    parameter optional entry ::
      -- An entry counts as having a default also where it is faulty itself.
      parameters (optional || (splitDefault entry.text).2.isSome) entries

end Stylesheet.Mixin
