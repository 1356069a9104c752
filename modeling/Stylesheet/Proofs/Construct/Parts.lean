import Stylesheet.Construct.Reading
import Stylesheet.Document.Services

/-!
# The parts of a construct

- `Part`: what an expression is to its construct. The expressions of some parts run to the end of
  their line (`Part.isOpen`); those of the others end where something else of the line begins.
- `Construct.parts`: the expressions of a construct with their parts, from left to right.
- `Reading.asks`: what a line asks of the services, in this order: to read the expression of a slot,
  or to find a stylesheet. `Line.request` is how it hands over a slot.
-/

namespace Stylesheet

/-- What an expression is to the construct that it belongs to. -/
inductive Part where
  | attributeValue
  | boundValue
  /-- The test of an alternative branch. -/
  | alternative
  | parameterDefault
  | argument
  | loopFirst
  | loopLast
  | condition
  | repetition
  | debugValue
deriving DecidableEq, Repr

/-- Whether an expression runs to the end of its line by the way in which the line is read. -/
def Part.isOpen : Part → Bool
  | .attributeValue | .boundValue | .alternative => true
  | _ => false

/-- The default of a parameter as a part. -/
def Parameter.parts {E : Type} (parameter : Parameter E) : List (Part × E) :=
  parameter.defaultValue.toList.map fun e => (.parameterDefault, e)

/-- The expressions of a construct, from left to right. -/
def Construct.parts {E : Type} : Construct E → List (Part × E)
  | .attribute _ (.expression e) _ => [(.attributeValue, e)]
  | .binding _ value _ => [(.boundValue, value)]
  | .mixinDefinition _ parameters => parameters.flatMap Parameter.parts
  | .mixinInclude _ arguments => arguments.map fun e => (.argument, e)
  | .conditional (some test) => [(.condition, test)]
  | .whileLoop test => [(.repetition, test)]
  | .forLoop _ first last _ => [(.loopFirst, first), (.loopLast, last)]
  | .debug value => [(.debugValue, value)]
  | _ => []

/-- What a line asks of the services. -/
inductive Ask where
  /-- To read the expression of a slot. -/
  | expression (part : Part) (slot : Slot)
  /-- To find the stylesheet of a name. -/
  | sheet (name : Text)
deriving DecidableEq, Repr

namespace Reading

/-- The slots of parts, to be read. -/
def asksOf (parts : List (Part × Slot)) : List Ask := parts.map fun (part, slot) => .expression part slot

/-- What a parameter asks. One that is faulty asks nothing. -/
def parameterAsks : Except Cause (Parameter Slot) → List Ask
  | .error _ => []
  | .ok parameter => asksOf parameter.parts

/-- What an entry of an import asks. -/
def entryAsks : ImportEntry → List Ask
  | .css _ => []
  | .sheet name => [.sheet name]

/-- What a line asks of the services, from left to right. -/
def asks : Reading → List Ask
  | .construct c => asksOf c.parts
  | .definition _ parameters => parameters.flatMap parameterAsks
  | .imports entries => entries.flatMap entryAsks
  | .branch test => asksOf (test.toList.map fun slot => (.alternative, slot))

theorem mem_asksOf {parts : List (Part × Slot)} {part : Part} {slot : Slot} :
    .expression part slot ∈ asksOf parts ↔ (part, slot) ∈ parts := by
  simp [asksOf]

end Reading

/-- How a line hands over a slot. -/
def Line.request (line : Line) (slot : Slot) : Request :=
  ⟨slot.text, line.site, line.offset + slot.column⟩

end Stylesheet
