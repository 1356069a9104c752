import Stylesheet.Text.Cut

/-!
# Constructs

- `Construct E`: what one line of a stylesheet says, with expressions of type `E` (`StyleNode`,
  without what belongs to every node).
- `Construct.traverse`: replaces the expressions of a construct, from left to right.
- `Slot`: a piece of a line's text where an expression stands. A line is first read as a
  `Construct Slot`.
-/

namespace Stylesheet

/-! ## Slots -/

/-- A piece of the text of a line, and the column at which it starts. -/
structure Slot where
  text : Text
  column : Int
deriving DecidableEq, Repr

/-- The slot of a text with which a line ends. -/
def Slot.atEnd (line text : Text) : Slot := ⟨text, (line.units : Int) - (Text.units text : Int)⟩

/-! ## Constructs -/

/-- The value of an attribute: text as it stands, or an expression. -/
inductive AttributeValue (E : Type) where
  | literal (text : Text)
  | expression (e : E)
deriving DecidableEq, Repr

/-- The two ways to write an attribute: with a colon in front of its name, or behind it. -/
inductive AttributeForm where
  | prefixed
  | inline
deriving DecidableEq, Repr

/-- A parameter of a mixin (`MixinArgument`). -/
structure Parameter (E : Type) where
  name : Text
  /-- The expression that stands in for a missing argument. -/
  defaultValue : Option E
deriving DecidableEq, Repr

/-- What one line says, or several lines if a rule goes on over them (`StyleNode`). -/
inductive Construct (E : Type) where
  /-- A rule; each selector but the last ends in a comma. -/
  | rule (selectors : List Text)
  | attribute (name : Text) (value : AttributeValue E) (form : AttributeForm)
  /-- A comment with the lines beneath it. A silent one is not put out. -/
  | comment (text : Text) (silent : Bool) (body : List Text)
  /-- A directive without a meaning of its own. -/
  | directive (text : Text)
  /-- A variable takes a value; if `guarded`, only where it has none. -/
  | binding (name : Text) (value : E) (guarded : Bool)
  | mixinDefinition (name : Text) (parameters : List (Parameter E))
  | mixinInclude (name : Text) (arguments : List E)
  /-- A condition. Only an alternative branch may go without a test. -/
  | conditional (test : Option E)
  | whileLoop (test : E)
  /-- A loop from `first` on, up to `last`, which is left out unless `inclusive`. -/
  | forLoop (name : Text) (first last : E) (inclusive : Bool)
  | debug (value : E)
  /-- An import of another stylesheet. -/
  | fileImport (path : Text)
  /-- An import that is put out as it is. -/
  | cssImport (text : Text)
deriving DecidableEq, Repr

namespace Construct

/-- Whether the construct is a condition. -/
def isConditional {E : Type} : Construct E → Bool
  | .conditional _ => true
  | _ => false

/-- Whether the construct is a comment. -/
def isComment {E : Type} : Construct E → Bool
  | .comment _ _ _ => true
  | _ => false

variable {m : Type → Type} [Monad m] {α β : Type}

/-- Replaces the expressions of a construct, one after the other from left to right, as the line
handlers call `parseScript`. -/
def traverse (f : α → m β) : Construct α → m (Construct β)
  | .rule selectors => pure (.rule selectors)
  | .attribute name (.literal text) form => pure (.attribute name (.literal text) form)
  | .attribute name (.expression e) form => return .attribute name (.expression (← f e)) form
  | .comment text silent body => pure (.comment text silent body)
  | .directive text => pure (.directive text)
  | .binding name value guarded => return .binding name (← f value) guarded
  | .mixinDefinition name parameters => do
    let parameters ← parameters.mapM fun
      | ⟨name, none⟩ => pure ⟨name, none⟩
      | ⟨name, some e⟩ => return ⟨name, some (← f e)⟩
    return .mixinDefinition name parameters
  | .mixinInclude name arguments => return .mixinInclude name (← arguments.mapM f)
  | .conditional none => pure (.conditional none)
  | .conditional (some test) => return .conditional (some (← f test))
  | .whileLoop test => return .whileLoop (← f test)
  | .forLoop name first last inclusive => do
    let first ← f first
    let last ← f last
    return .forLoop name first last inclusive
  | .debug value => return .debug (← f value)
  | .fileImport path => pure (.fileImport path)
  | .cssImport text => pure (.cssImport text)

end Construct

end Stylesheet
