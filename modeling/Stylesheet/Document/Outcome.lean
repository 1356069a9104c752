import Stylesheet.Construct.Reading
import Stylesheet.Document.Services
import Stylesheet.Node.Basic

/-!
# What a line puts into a document

- `Outcome E`: a node, a node for each import, or a branch of the condition in front
  (`Classification`).
- `Reading.resolve`: lets the services read the expressions and find the imports of a line, from
  left to right (`parseScript`, `resolveImport`).
-/

namespace Stylesheet

/-- What a line puts into a document (`Classification`, with the branch that `parseElse`
attaches). -/
inductive Outcome (E : Type) where
  | node (node : Node E)
  /-- The nodes of an import, one for each of its entries. -/
  | nodes (nodes : List (Node E))
  /-- A branch of the condition in front of the line. -/
  | branch (branch : Node E)

namespace Reading

variable {σ E : Type}

/-- Reads the default of a parameter, or fails if the parameter is faulty
(`parseMixinDefinition`). -/
def resolveParameter (services : Services σ E) (line : Line) :
    Except Cause (Parameter Slot) → Parsing σ (Parameter E)
  | .error cause => throw (line.fault cause)
  | .ok ⟨name, none⟩ => return ⟨name, none⟩
  | .ok ⟨name, some slot⟩ => return ⟨name, some (← services.fill line slot)⟩

/-- Finds the stylesheet of an entry of an import (`parseImport`). A plain style sheet is put out as
an address. -/
def resolveEntry (services : Services σ E) (directories : List Text) (line : Line) :
    ImportEntry → Parsing σ (Construct E)
  | .css text => return .cssImport text
  | .sheet name => do
    let path ← services.find directories line name
    if cssExtension.isSuffixOf path then return .cssImport (Import.css ("url(" ++ path ++ ")"))
    else return .fileImport path

/-- Reads the expressions and finds the imports of a line, from left to right. The nodes beneath the
line are still missing. -/
def resolve (services : Services σ E) (directories : List Text) (line : Line) :
    Reading → Parsing σ (Outcome E)
  | .construct c => return .node ⟨← c.traverse (services.fill line), line.site, [], []⟩
  | .definition name parameters => do
    -- Defaults in front of a faulty parameter are still read, those behind it are not.
    let parameters ← parameters.mapM (resolveParameter services line)
    return .node ⟨.mixinDefinition name parameters, line.site, [], []⟩
  | .imports entries => do
    let constructs ← entries.mapM (resolveEntry services directories line)
    return .nodes (constructs.map fun c => ⟨c, line.site, [], []⟩)
  | .branch none => return .branch ⟨.conditional none, line.site, [], []⟩
  | .branch (some test) => do
    let test ← services.fill line test
    return .branch ⟨.conditional (some test), line.site, [], []⟩

end Reading

end Stylesheet
