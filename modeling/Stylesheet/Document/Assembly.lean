import Stylesheet.Document.Outcome

/-!
# Assembling a forest of lines

- `Siblings E`: the nodes put next to each other so far, and the rule that still goes on, if one
  does. A rule goes on with the next line if its last selector ends in a comma (`isContinued`).
- `Siblings.add`: puts what a line says behind the others (`appendResult`); `Siblings.finish` ends
  the list.
- `Assembly.forest`: reads a forest of lines, each line before those beneath it (`appendChildren`,
  `buildNode`).
-/

namespace Stylesheet

/-! ## Siblings -/

/-- A rule that goes on, with the selectors it has so far and the line it started on. -/
structure OpenRule where
  selectors : List Text
  site : Site

/-- Whether a rule with these selectors goes on with the next line (`isContinued`). -/
def OpenRule.goesOn (selectors : List Text) : Bool :=
  selectors.getLast?.bind List.getLast? == some ','

/-- The nodes next to each other, the newest first, and the rule that goes on behind them. -/
structure Siblings (E : Type) where
  placed : List (Node E) := []
  pending : Option OpenRule := none

namespace Siblings

variable {E : Type}

/-- Whether the newest node is a condition, which `parseElse` asks for. -/
def afterConditional (siblings : Siblings E) : Bool := siblings.placed.head?.any Node.isConditional

/-- An error where a rule goes on and nothing may. It blames the line on which the rule started. -/
def closed (siblings : Siblings E) : Except SyntaxError Unit :=
  match siblings.pending with
  | none => .ok ()
  | some rule => .error (.atLine .danglingComma rule.site.line)

/-- Why a construct may not stand below the root, if it may not (`appendChild`). -/
def rootOnly? : Construct E → Option Cause
  | .mixinDefinition _ _ => some .misplacedMixin
  | .fileImport _ | .cssImport _ => some .misplacedImport
  | _ => none

/-- Puts a node behind the others, unless it may only stand at the root and does not
(`appendChild`). -/
def place (root : Bool) (line : Line) (siblings : Siblings E) (node : Node E) :
    Except SyntaxError (Siblings E) :=
  match if root then none else rootOnly? node.construct with
  | some cause => .error (line.fault cause)
  | none => .ok { siblings with placed := node :: siblings.placed }

/-- Puts a rule behind the others. It ends the rule that goes on, or goes on itself. -/
def addRule (line : Line) (siblings : Siblings E) (selectors : List Text) (node : Node E) :
    Except SyntaxError (Siblings E) :=
  let rule : OpenRule :=
    match siblings.pending with
    | none => ⟨selectors, node.site⟩
    | some rule => ⟨rule.selectors ++ selectors, rule.site⟩
  if !OpenRule.goesOn selectors then
    .ok
      { placed := { node with construct := .rule rule.selectors, site := rule.site } :: siblings.placed
        pending := none }
  -- Lines beneath a rule that goes on are blamed on its own line, not on the one it started on.
  else if node.children.isEmpty then .ok { siblings with pending := some rule }
  else .error (line.fault .danglingComma)

/-- Puts a branch behind those of the newest node (the end of `parseElse`). -/
def addBranch (siblings : Siblings E) (branch : Node E) : Siblings E :=
  match siblings.placed with
  | [] => siblings
  | node :: nodes => { siblings with placed := node.addBranch branch :: nodes }

/-- Puts what a line says behind the others (`appendResult`). Only another rule may follow a rule
that goes on. -/
def add (root : Bool) (line : Line) (siblings : Siblings E) :
    Outcome E → Except SyntaxError (Siblings E)
  | .node node =>
    match node.construct with
    | .rule selectors => addRule line siblings selectors node
    | _ => do
      siblings.closed
      siblings.place root line node
  | .nodes nodes => do
    siblings.closed
    -- The entries of one import are placed in turn, so the first of them is blamed below the root.
    nodes.foldlM (fun siblings node => siblings.place root line node) siblings
  | .branch branch => do
    siblings.closed
    return siblings.addBranch branch

/-- The nodes in order. No rule may go on behind the last one (the end of `appendChildren`). -/
def finish (siblings : Siblings E) : Except SyntaxError (List (Node E)) := do
  siblings.closed
  return siblings.placed.reverse

end Siblings

/-! ## Forests of lines -/

namespace Assembly

variable {σ E : Type} (services : Services σ E) (directories : List Text)

mutual

/-- Puts a line and all lines beneath it behind its siblings (`buildNode`, `appendResult`). -/
def line (root : Bool) (siblings : Siblings E) : Line → Parsing σ (Siblings E)
  | ⟨text, depth, index, offset, filename, children⟩ => do
    let line : Line := ⟨text, depth, index, offset, filename, children⟩
    let reading ← Reading.ofLine siblings.afterConditional line
    match ← reading.resolve services directories line with
    | .node node =>
      -- The lines beneath a comment are its text and are not read.
      if node.construct.isComment then siblings.add root line (.node node)
      else do
        let nested ← forest false {} children
        siblings.add root line (.node { node with children := ← nested.finish })
    | .nodes nodes => siblings.add root line (.nodes nodes)
    | .branch branch =>
      let nested ← forest false {} children
      siblings.add root line (.branch { branch with children := ← nested.finish })

/-- Puts the lines of a forest behind their siblings, one after the other (`appendChildren`). -/
def forest (root : Bool) (siblings : Siblings E) : List Line → Parsing σ (Siblings E)
  | [] => return siblings
  | first :: rest => do
    let siblings ← line root siblings first
    forest root siblings rest

end

end Assembly

end Stylesheet
