import Stylesheet.Construct.Basic
import Stylesheet.Expression.Basic
import Stylesheet.FileSystem.Search
import Stylesheet.Line.Basic

/-!
# Services

Reading a document leaves two things to others: reading expressions and finding imports.

- `Services σ E`: the two, which may keep a state of type `σ` (`ParserCollaborators`).
- `Services.standard`: keeps expressions as text and looks for imports in a file system
  (`DEFAULT_COLLABORATORS`).
- `Services.recorded`: also notes every call with its answer.
- `Services.Throwing`: services that may throw anything. Of what they throw only the message counts
  (`Services.ofThrowing`).
- `Parsing σ`: what reading a document may do: fail with an error, and let the services change their
  state. A change outlives a failure.
-/

namespace Stylesheet

/-- The text of an expression, where it stands and the column at which it starts. -/
structure Request where
  text : Text
  site : Site
  offset : Int
deriving DecidableEq, Repr

/-- Those who read expressions and find imports (`ParserCollaborators`). They fail with a
message. -/
structure Services (σ E : Type) where
  parse : Request → StateM σ (Except Text E)
  /-- Finds the stylesheet of a name, given the directories to look in. -/
  locate : Text → List Text → StateM σ (Except Text Text)

/-- What reading a document may do. -/
abbrev Parsing (σ : Type) := ExceptT SyntaxError (StateM σ)

namespace Services

variable {σ E : Type}

/-- Expressions are kept as text, and imports are looked for in a file system
(`DEFAULT_COLLABORATORS`). -/
def standard (fs : FileSystem) : Services σ Expression where
  parse request := pure (Expression.read request.text request.site request.offset)
  locate name directories := pure (fs.find name directories)

/-! ## Services that throw -/

/-- What a service may throw. -/
inductive Failure where
  | error (message : Text)
  /-- A text that is no error. -/
  | bare (text : Text)
  /-- A syntax error, which may name a line and a file of another document. -/
  | fault (e : SyntaxError)
deriving DecidableEq, Repr

/-- A failure in words (`errorMessage`). Where it says that it comes from does not count. -/
def Failure.message : Failure → Text
  | .error message => message
  | .bare text => text
  | .fault e => e.message

/-- Those who read expressions and find imports, and may throw anything. -/
structure Throwing (σ E : Type) where
  parse : Request → StateM σ (Except Failure E)
  locate : Text → List Text → StateM σ (Except Failure Text)

/-- Services that fail with the message of what is thrown. -/
def ofThrowing (throwing : Throwing σ E) : Services σ E where
  parse request := fun state =>
    let (answer, state) := throwing.parse request state
    (answer.mapError Failure.message, state)
  locate name directories := fun state =>
    let (answer, state) := throwing.locate name directories state
    (answer.mapError Failure.message, state)

/-! ## Notes of calls -/

/-- A call of a service, and how it was answered. -/
inductive Call (E : Type) where
  | expression (request : Request) (answer : Except Text E)
  | sheet (name : Text) (directories : List Text) (answer : Except Text Text)

/-- The same services, with their calls noted in order. -/
def recorded (services : Services σ E) : Services (σ × List (Call E)) E where
  parse request := fun (state, calls) =>
    let (answer, state) := services.parse request state
    (answer, state, calls ++ [.expression request answer])
  locate name directories := fun (state, calls) =>
    let (answer, state) := services.locate name directories state
    (answer, state, calls ++ [.sheet name directories answer])

/-! ## Calls for a line -/

/-- Calls a service for a line. Its failure becomes an error on that line, as in `parseScript` and
`resolveImport`. -/
def call {α : Type} (line : Line) (ask : StateM σ (Except Text α)) : Parsing σ α := do
  match ← ask with
  | .ok a => return a
  | .error message => throw (line.fault (.reported message))

/-- Reads the expression of a slot of a line (`parseScript`). The column counts from the start of
the physical line, so the indentation is added. -/
def fill (services : Services σ E) (line : Line) (slot : Slot) : Parsing σ E :=
  call line (services.parse ⟨slot.text, line.site, line.offset + slot.column⟩)

/-- Finds the stylesheet that a line names (`resolveImport`). -/
def find (services : Services σ E) (directories : List Text) (line : Line) (name : Text) :
    Parsing σ Text :=
  call line (services.locate name directories)

end Services

end Stylesheet
