import Stylesheet.Node.Basic

/-!
# Documents as JSON values

- `Node.toJson`, `Document.toJson`: the values of a node and of a document, for a given way to write
  expressions. A condition holds its first alternative branch, which holds the next one. The fields
  and their order are those of the objects that the line handlers make.
-/

namespace Stylesheet

variable {E : Type}

/-! ## Constructs -/

/-- The value of the text or the expression of an attribute. -/
def AttributeValue.toJson (encode : E → Json) : AttributeValue E → Json
  | .literal text => .text text
  | .expression e => encode e

/-- The name of a way to write attributes. -/
def AttributeForm.text : AttributeForm → Text
  | .prefixed => "prefixed"
  | .inline => "inline"

/-- The value of a parameter. -/
def Parameter.toJson (encode : E → Json) (parameter : Parameter E) : Json :=
  .record
    [("name", .text parameter.name), ("defaultValue", .nullable encode parameter.defaultValue)]

/-- The name of a kind of construct (`StyleNodeType`). -/
def Construct.kind : Construct E → Text
  | .rule _ => "rule"
  | .attribute _ _ _ => "attribute"
  | .comment _ _ _ => "comment"
  | .directive _ => "directive"
  | .binding _ _ _ => "variable"
  | .mixinDefinition _ _ => "mixin-def"
  | .mixinInclude _ _ => "mixin"
  | .conditional _ => "if"
  | .whileLoop _ => "while"
  | .forLoop _ _ _ _ => "for"
  | .debug _ => "debug"
  | .fileImport _ => "file-import"
  | .cssImport _ => "css-import"

/-- The fields of a construct. A condition has one for the branch to take where it fails. -/
def Construct.fields (encode : E → Json) (otherwise : Json) : Construct E → List (Text × Json)
  | .rule selectors => [("rules", .texts selectors)]
  | .attribute name value form =>
    [("name", .text name), ("value", value.toJson encode), ("syntax", .text form.text)]
  | .comment text silent body =>
    [("value", .text text), ("silent", .bool silent), ("lines", .texts body)]
  | .directive text => [("value", .text text)]
  | .binding name value guarded =>
    [("name", .text name), ("expression", encode value), ("guarded", .bool guarded)]
  | .mixinDefinition name parameters =>
    [("name", .text name), ("args", .list (parameters.map (Parameter.toJson encode)))]
  | .mixinInclude name arguments =>
    [("name", .text name), ("args", .list (arguments.map encode))]
  | .conditional test => [("expression", .nullable encode test), ("else", otherwise)]
  | .whileLoop test => [("expression", encode test)]
  | .forLoop name first last inclusive =>
    [("variable", .text name), ("from", encode first), ("to", encode last),
     ("inclusive", .bool inclusive)]
  | .debug value => [("expression", encode value)]
  | .fileImport path => [("path", .text path)]
  | .cssImport text => [("value", .text text)]

/-! ## Nodes -/

namespace Node

/-- The fields that every node has: its line, its file if that is known, and its children
(`nodeBase`). -/
def commonFields (site : Site) (children : List Json) : List (Text × Json) :=
  match site.filename with
  | none => [("line", .number site.line), ("children", .list children)]
  | some filename =>
    [("line", .number site.line), ("filename", .text filename), ("children", .list children)]

/-- The value of a node whose nested nodes have the given values. -/
def record (encode : E → Json) (construct : Construct E) (site : Site) (children : List Json)
    (otherwise : Json) : Json :=
  .record <|
    ("type", .text construct.kind) ::
      (construct.fields encode otherwise ++ commonFields site children)

mutual

/-- The value of a node. -/
def toJson (encode : E → Json) : Node E → Json
  | ⟨construct, site, children, branches⟩ =>
    record encode construct site (forestJson encode children) (chainJson encode branches)

/-- The value of a branch, behind which another may follow. -/
def branchJson (encode : E → Json) (otherwise : Json) : Node E → Json
  | ⟨construct, site, children, _⟩ =>
    record encode construct site (forestJson encode children) otherwise

/-- The value of a chain of branches, each of which holds those behind it. -/
def chainJson (encode : E → Json) : List (Node E) → Json
  | [] => .null
  | branch :: branches => branchJson encode (chainJson encode branches) branch

/-- The values of the nodes of a forest. -/
def forestJson (encode : E → Json) : List (Node E) → List Json
  | [] => []
  | node :: nodes => toJson encode node :: forestJson encode nodes

end

end Node

/-- The value of a document. -/
def Document.toJson (encode : E → Json) (document : Document E) : Json :=
  .record
    [("type", .text "root"),
     ("children", .list (Node.forestJson encode document.children)),
     ("options", document.options.toJson)]

end Stylesheet
