import Stylesheet.Proofs.Document.Relocation

/-!
# Documents whose lines are moved

If the lines of a document are moved, the document that is assembled from them moves along, and so
does the error if there is one.

- `Siblings.add_relocate`: nodes are put next to each other wherever they stand.
- `Assembly.line_moves`, `Assembly.forest_moves`: the same for lines and for all lines beneath them.
- `Line.nest_relocate`: lines are nested by their depths, which do not change.
- `Document.ofLines`: reads a document from lines; `Document.ofLines_moves` is the sum of all these.
-/

namespace Stylesheet

open Parsing

variable {σ α β : Type} {ρ : Relocation}

/-! ## Siblings -/

def OpenRule.relocate (ρ : Relocation) (rule : OpenRule) : OpenRule :=
  { rule with site := rule.site.relocate ρ }

namespace Siblings

def relocate (ρ : Relocation) (siblings : Siblings Expression) : Siblings Expression where
  placed := Node.relocateAll ρ siblings.placed
  pending := siblings.pending.map (.relocate ρ)

variable {siblings : Siblings Expression} {root : Bool} {line : Line}

/-- Whether an alternative may follow is not a matter of lines. -/
theorem afterConditional_relocate (siblings : Siblings Expression) :
    (siblings.relocate ρ).afterConditional = siblings.afterConditional := by
  obtain ⟨placed, pending⟩ := siblings
  cases placed with
  | nil => rfl
  | cons node nodes =>
    obtain ⟨construct, site, children, branches⟩ := node
    exact Construct.isConditional_map _ construct

/-- A rule that goes on fails on the line where it started, which has moved. -/
theorem closed_relocate (siblings : Siblings Expression) :
    (siblings.relocate ρ).closed = moved ρ id siblings.closed := by
  obtain ⟨placed, pending⟩ := siblings
  cases pending <;> rfl

/-- A node that may not stand among its siblings fails on the line that it comes from. -/
theorem place_relocate (siblings : Siblings Expression) (node : Node Expression) :
    (siblings.relocate ρ).place root (line.relocate ρ) (node.relocate ρ) =
      moved ρ (.relocate ρ) (siblings.place root line node) := by
  obtain ⟨construct, site, children, branches⟩ := node
  unfold place
  rw [Node.relocate]
  dsimp only
  rw [Construct.rootOnly?_map]
  split
  · rw [Line.fault_relocate]
    rfl
  · rfl

/-- The nodes of an import are placed one after another, each behind the one before. -/
theorem placeAll_relocate (siblings : Siblings Expression) (nodes : List (Node Expression)) :
    (Node.relocateAll ρ nodes).foldlM
        (fun siblings node => siblings.place root (line.relocate ρ) node) (siblings.relocate ρ) =
      moved ρ (.relocate ρ)
        (nodes.foldlM (fun siblings node => siblings.place root line node) siblings) := by
  induction nodes generalizing siblings with
  | nil => rfl
  | cons node nodes ih =>
    rw [Node.relocateAll, List.foldlM_cons, List.foldlM_cons, place_relocate]
    exact moved_bind ih

theorem isEmpty_relocateAll (nodes : List (Node Expression)) :
    (Node.relocateAll ρ nodes).isEmpty = nodes.isEmpty := by
  cases nodes <;> rfl

/-- A rule takes in the selectors that wait, and takes over the site of the first of them. -/
theorem addRule_relocate (siblings : Siblings Expression) (selectors : List Text)
    (node : Node Expression) :
    (siblings.relocate ρ).addRule (line.relocate ρ) selectors (node.relocate ρ) =
      moved ρ (.relocate ρ) (siblings.addRule line selectors node) := by
  obtain ⟨construct, site, children, branches⟩ := node
  obtain ⟨placed, pending⟩ := siblings
  unfold addRule
  rw [Node.relocate, Line.fault_relocate, isEmpty_relocateAll]
  -- the site of the node is its own, or that of the rule that goes on, and both are moved
  cases pending with
  | none =>
    dsimp only [relocate, Option.map]
    split
    · rfl
    · split <;> rfl
  | some rule =>
    dsimp only [relocate, Option.map]
    split
    · rfl
    · split <;> rfl

/-- A branch goes to the newest node, which is at the head of those placed. -/
theorem addBranch_relocate (siblings : Siblings Expression) (branch : Node Expression) :
    (siblings.relocate ρ).addBranch (branch.relocate ρ) = (siblings.addBranch branch).relocate ρ := by
  obtain ⟨placed, pending⟩ := siblings
  cases placed with
  | nil => rfl
  | cons node nodes =>
    obtain ⟨construct, site, children, branches⟩ := node
    have hbranches : Node.relocateAll ρ (branches ++ [branch]) =
        Node.relocateAll ρ branches ++ [branch.relocate ρ] := by
      rw [Node.relocateAll_eq_map, Node.relocateAll_eq_map, List.map_append]
      rfl
    unfold addBranch relocate
    dsimp only [Node.relocateAll, Node.relocate, Node.addBranch]
    rw [hbranches]

/-- What is put behind siblings moves along with them. -/
theorem add_relocate (root : Bool) (line : Line) (siblings : Siblings Expression)
    (outcome : Outcome Expression) :
    (siblings.relocate ρ).add root (line.relocate ρ) (outcome.relocate ρ) =
      moved ρ (.relocate ρ) (siblings.add root line outcome) := by
  -- a rule is added in its own way; everything else closes the rule that goes on first
  match outcome with
  | .node ⟨construct, site, children, branches⟩ =>
    match construct with
    | .rule selectors => exact addRule_relocate siblings selectors _
    | .attribute _ _ _ | .comment _ _ _ | .directive _ | .binding _ _ _ | .mixinDefinition _ _
    | .mixinInclude _ _ | .conditional _ | .whileLoop _ | .forLoop _ _ _ _ | .debug _ | .fileImport _
    | .cssImport _ =>
      show ((siblings.relocate ρ).closed >>= fun _ => _) = _
      rw [closed_relocate]
      exact moved_bind fun _ => place_relocate siblings _
  | .nodes all =>
    show ((siblings.relocate ρ).closed >>= fun _ => _) = _
    rw [closed_relocate]
    exact moved_bind fun _ => placeAll_relocate siblings all
  | .branch alternative =>
    show ((siblings.relocate ρ).closed >>= fun _ => _) = _
    rw [closed_relocate]
    refine moved_bind fun _ => ?_
    rw [addBranch_relocate]
    rfl

theorem finish_relocate (siblings : Siblings Expression) :
    (siblings.relocate ρ).finish = moved ρ (Node.relocateAll ρ) siblings.finish := by
  unfold finish
  rw [closed_relocate]
  refine moved_bind fun _ => ?_
  show pure (Node.relocateAll ρ siblings.placed).reverse =
    pure (Node.relocateAll ρ siblings.placed.reverse)
  rw [Node.relocateAll_eq_map, Node.relocateAll_eq_map, List.map_reverse]

end Siblings

/-! ## Assembling lines -/

namespace Assembly

variable (fs : FileSystem) (directories : List Text)

/-- The nodes beneath a line, all of which are put behind the siblings at once. -/
theorem finish_moves {nested nested' : Parsing σ (Siblings Expression)} {siblings : Siblings Expression}
    {root : Bool} {line : Line} {single single' : List (Node Expression) → Outcome Expression}
    (hnested : Moves ρ (.relocate ρ) nested nested')
    (hsingle : ∀ nodes, single' (Node.relocateAll ρ nodes) = (single nodes).relocate ρ) :
    Moves ρ (.relocate ρ)
      (do
        let nested ← nested
        siblings.add root line (single (← nested.finish)))
      (do
        let nested ← nested'
        (siblings.relocate ρ).add root (line.relocate ρ) (single' (← nested.finish))) := by
  refine hnested.bind fun nested => ?_
  refine (moves_lift (Siblings.finish_relocate nested)).bind fun nodes => ?_
  rw [hsingle]
  exact moves_lift (Siblings.add_relocate root line siblings _)

mutual

/-- What a line puts behind its siblings moves along with them. -/
theorem line_moves (root : Bool) (siblings : Siblings Expression) : ∀ line : Line,
    Moves ρ (.relocate ρ)
      (Assembly.line (.standard fs) directories root siblings line : Parsing σ (Siblings Expression))
      (Assembly.line (.standard fs) directories root (siblings.relocate ρ) (line.relocate ρ))
  | ⟨text, depth, index, offset, filename, children⟩ => by
    have hreading := Reading.ofLine_relocate (ρ := ρ) ⟨text, depth, index, offset, filename, children⟩
      siblings.afterConditional
    have hadd := Siblings.add_relocate (ρ := ρ) root
      ⟨text, depth, index, offset, filename, children⟩ siblings
    have hnested := forest_moves false {} children
    rw [Assembly.line, Line.relocate, Assembly.line, Siblings.afterConditional_relocate]
    -- the four steps of a line, each of which moves: reading, asking, what is beneath, and adding
    refine (moves_lift hreading).bind fun reading => ?_
    refine (Reading.resolve_moves fs directories _ reading).bind fun outcome => ?_
    match outcome with
    | .node ⟨construct, site, above, branches⟩ =>
      dsimp only [Outcome.relocate, Node.relocate, id]
      -- a comment keeps the lines beneath it as text, so nothing is assembled there
      rw [Construct.isComment_map]
      split
      · exact moves_lift (hadd (.node ⟨construct, site, above, branches⟩))
      · exact finish_moves hnested fun _ => rfl
    | .nodes all => exact moves_lift (hadd (.nodes all))
    | .branch ⟨construct, site, above, branches⟩ =>
      exact finish_moves hnested fun _ => rfl

/-- What a forest of lines puts behind siblings moves along with them. -/
theorem forest_moves (root : Bool) (siblings : Siblings Expression) : ∀ lines : List Line,
    Moves ρ (.relocate ρ)
      (forest (.standard fs) directories root siblings lines : Parsing σ (Siblings Expression))
      (forest (.standard fs) directories root (siblings.relocate ρ) (Line.relocateForest ρ lines))
  | [] => by
    rw [forest, Line.relocateForest, forest]
    exact moves_pure _
  | first :: rest => by
    rw [forest, Line.relocateForest, forest]
    exact (line_moves root siblings first).bind fun siblings => forest_moves root siblings rest

end

end Assembly

/-! ## Nesting lines -/

namespace Line

/-- The run of lines from a position on is found by their depths, which do not move. -/
theorem level_relocate (lines : List Line) (start : Nat) :
    level (lines.map (relocate ρ)) start = (level lines start).map (relocate ρ) := by
  unfold level
  rw [← List.map_drop]
  cases lines.drop start with
  | nil => rfl
  | cons first rest =>
    have hdepths : (fun line : Line => decide ((first.relocate ρ).depth ≤ line.depth)) ∘ relocate ρ =
        fun line => decide (first.depth ≤ line.depth) := by
      funext line
      show decide ((first.relocate ρ).depth ≤ (line.relocate ρ).depth) = _
      rw [depth_relocate, depth_relocate]
    show first.relocate ρ :: (rest.map (relocate ρ)).takeWhile _ = first.relocate ρ :: _
    rw [List.takeWhile_map, hdepths]

/-- Nor do the differences between depths. -/
theorem overIndented?_relocate (lines : List Line) :
    overIndented? (lines.map (relocate ρ)) =
      (overIndented? lines).map fun (line, levels) => (line.relocate ρ, levels) := by
  fun_induction overIndented? lines with
  | case1 => rfl
  | case2 line => rfl
  | case3 upper lower rest hover =>
    rw [List.map_cons, List.map_cons, overIndented?, depth_relocate, depth_relocate, if_pos hover]
    rfl
  | case4 upper lower rest hover ih =>
    rw [List.map_cons, List.map_cons, overIndented?, depth_relocate, depth_relocate, if_neg hover]
    exact ih

/-- A line takes the same trees beneath it after a move. -/
theorem graft_relocate (line : Line) (trees : List Line) :
    graft (line.relocate ρ) (trees.map (relocate ρ)) = (graft line trees).map (relocate ρ) := by
  -- the trees that go beneath the line are those that are deeper, before the move and after it
  have hdepths : (fun tree : Line => decide ((line.relocate ρ).depth < tree.depth)) ∘ relocate ρ =
      fun tree => decide (line.depth < tree.depth) := by
    funext tree
    show decide ((line.relocate ρ).depth < (tree.relocate ρ).depth) = _
    rw [depth_relocate, depth_relocate]
  unfold graft
  rw [List.takeWhile_map, List.dropWhile_map, hdepths]
  cases trees.takeWhile fun tree => decide (line.depth < tree.depth) with
  | nil => rfl
  | cons child children =>
    have hline : ({ line with children := child :: children } : Line).relocate ρ =
        { line.relocate ρ with children := (child :: children).map (relocate ρ) } := by
      cases line
      rw [relocate, relocate, relocateForest_eq_map]
    show { line.relocate ρ with children := (child :: children).map (relocate ρ) } :: _ =
      ({ line with children := child :: children } : Line).relocate ρ :: _
    rw [hline]

/-- Lines are nested the same way wherever they stand. -/
theorem forest_relocate (lines : List Line) :
    forest (lines.map (relocate ρ)) = (forest lines).map (relocate ρ) := by
  induction lines with
  | nil => rfl
  | cons line lines ih =>
    show graft (line.relocate ρ) (forest (lines.map (relocate ρ))) = (graft line (forest lines)).map _
    rw [ih, graft_relocate]

/-- The forest of a run and its first fault move with the lines. -/
theorem nest_relocate (lines : List Line) (start : Nat) :
    nest (lines.map (relocate ρ)) start =
      moved ρ (fun (trees, next) => (relocateForest ρ trees, next)) (nest lines start) := by
  unfold nest
  rw [level_relocate]
  dsimp only
  rw [overIndented?_relocate, forest_relocate, List.length_map]
  cases overIndented? (level lines start) with
  | some fault =>
    -- the first line that is nested too deep is the same one, and its error is moved
    obtain ⟨line, levels⟩ := fault
    dsimp only [Option.map]
    rw [fault_relocate]
    rfl
  | none =>
    rw [← relocateForest_eq_map]
    rfl

end Line

/-! ## Documents -/

namespace Document

/-- Reads a document from its lines. -/
def ofLines (services : Services σ Expression) (overrides : Overrides) (lines : List Line) :
    Parsing σ (Document Expression) :=
  let options := overrides.resolve
  ExceptT.adapt (SyntaxError.inFile options.filename) do
    let (forest, _) ← Line.nest lines 0
    let siblings ← Assembly.forest services options.searchPath true {} forest
    return ⟨← siblings.finish, options⟩

/-- A source whose lines can be read gives the document of these lines. -/
theorem parseWith_eq {services : Services σ Expression} {overrides : Overrides} {source : Text}
    {lines : List Line}
    (h : Line.ofSource source overrides.resolve.firstLine overrides.resolve.filename = .ok lines) :
    parseWith services overrides source = ofLines services overrides lines := by
  unfold parseWith nodes ofLines
  dsimp only
  rw [h]
  simp only [bind_assoc]
  rfl

theorem inFile_relocate (filename : Option Text) (e : SyntaxError) :
    (e.inFile filename).relocate ρ = (e.relocate ρ).inFile filename := rfl

/-- A document moves with the lines that it is read from, under the standard services. -/
theorem ofLines_moves (fs : FileSystem) (overrides : Overrides) (lines : List Line) :
    Moves ρ (.relocate ρ) (ofLines (.standard fs) overrides lines : Parsing σ (Document Expression))
      (ofLines (.standard fs) overrides (lines.map (.relocate ρ))) := by
  refine Moves.adapt (inFile_relocate _) ?_
  refine (moves_lift (Line.nest_relocate lines 0)).bind fun (trees, next) => ?_
  refine (Assembly.forest_moves fs _ true {} trees).bind fun siblings => ?_
  exact (moves_lift (Siblings.finish_relocate siblings)).bind fun nodes => moves_pure _

end Document

end Stylesheet
