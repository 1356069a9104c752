import Stylesheet.Construct.Basic
import Stylesheet.Options
import Stylesheet.Site

/-!
# Nodes and documents

- `Node E`: a construct, where it stands, the nodes beneath it, and the alternative branches of a
  condition in their order (`StyleNode`).
- `Document E`: the nodes of a whole document, and the settings under which it was read
  (`RootNode`).
-/

namespace Stylesheet

/-- A construct of a document and what belongs to it (`NodeBase`). -/
structure Node (E : Type) where
  construct : Construct E
  /-- Where the construct starts. -/
  site : Site
  children : List (Node E) := []
  /-- The branches to take where a condition fails. Only a condition has any. -/
  branches : List (Node E) := []

namespace Node

variable {E : Type}

/-- Whether the node is a condition. -/
def isConditional (node : Node E) : Bool := node.construct.isConditional

/-- The condition with one more branch behind those it has. The branches are a list here, where
`IfNode` has a chain of `else` fields. -/
def addBranch (node branch : Node E) : Node E :=
  { node with branches := node.branches ++ [branch] }

end Node

/-- A document (`RootNode`). -/
structure Document (E : Type) where
  children : List (Node E)
  options : Options

end Stylesheet
