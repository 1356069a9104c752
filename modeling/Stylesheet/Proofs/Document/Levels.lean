import Stylesheet.Proofs.Document.Calls
import Stylesheet.Proofs.Document.Siblings

/-!
# The levels of a document

Lines that stand next to each other are a level, and so are nodes that do. Each level of lines is
assembled by itself, at any depth, unless a comment keeps it as text.

- `Line.IsLevel`, `Document.IsLevel`: the levels of a forest of lines, and those of a document.
- `Node.Offers`: the nodes beneath a node, or beneath one of its branches.
- `Assembly.level_beneath`: the lines beneath a line give a level beneath the nodes that the line is
  in.
- `Document.exists_level`: every level of lines gives a level of the document.
-/

namespace Stylesheet

open Parsing

variable {σ E : Type}

/-! ## Levels -/

/-- Whether a line is read as a comment. The lines beneath it are kept as text. -/
def Line.isComment (line : Line) : Bool :=
  match Reading.ofLine true line with
  | .ok reading => reading.isComment
  | .error _ => false

/-- The lines at the root of a forest, and the lines beneath a line of a level. -/
inductive Line.IsLevel (forest : List Line) : List Line → Prop where
  | root : IsLevel forest forest
  | beneath {level : List Line} {line : Line} (h : IsLevel forest level) (hline : line ∈ level)
    (hcomment : line.isComment = false) : IsLevel forest line.children

/-- The nodes at the root of a document, and the nodes beneath a node of a level or beneath one of
its branches. -/
inductive Document.IsLevel (document : Document E) : List (Node E) → Prop where
  | root : IsLevel document document.children
  | beneath {level : List (Node E)} {node : Node E} (h : IsLevel document level) (hnode : node ∈ level) :
    IsLevel document node.children
  | branch {level : List (Node E)} {node branch : Node E} (h : IsLevel document level)
    (hnode : node ∈ level) (hbranch : branch ∈ node.branches) : IsLevel document branch.children

/-- Nodes stand beneath a node or beneath one of its branches. -/
def Node.Offers (node : Node E) (nodes : List (Node E)) : Prop :=
  node.children = nodes ∨ ∃ branch ∈ node.branches, branch.children = nodes

theorem Document.IsLevel.of_offers {document : Document E} {level nodes : List (Node E)} {node : Node E}
    (h : document.IsLevel level) (hnode : node ∈ level) (hoffers : node.Offers nodes) :
    document.IsLevel nodes := by
  rcases hoffers with rfl | ⟨branch, hbranch, rfl⟩
  · exact .beneath h hnode
  · exact .branch h hnode hbranch

/-! ## What stands beneath siblings -/

namespace Siblings

variable {siblings added : Siblings E} {root : Bool} {line : Line} {outcome : Outcome E}
  {nodes : List (Node E)}

/-- Nodes stand beneath one of the siblings. -/
def Offers (siblings : Siblings E) (nodes : List (Node E)) : Prop :=
  ∃ node ∈ siblings.placed, node.Offers nodes

/-- A branch that is attached takes nothing away. -/
theorem offers_addBranch {branch : Node E} (h : siblings.Offers nodes) :
    (siblings.addBranch branch).Offers nodes := by
  obtain ⟨node, hnode, hoffers⟩ := h
  unfold addBranch
  cases hplaced : siblings.placed with
  | nil =>
    rw [hplaced] at hnode
    exact absurd hnode List.not_mem_nil
  | cons newest older =>
    rw [hplaced] at hnode
    rcases List.mem_cons.mp hnode with rfl | hnode
    · refine ⟨_, List.mem_cons_self, hoffers.imp_right ?_⟩
      rintro ⟨other, hother, heq⟩
      exact ⟨other, List.mem_append_left _ hother, heq⟩
    · exact ⟨node, List.mem_cons_of_mem _ hnode, hoffers⟩

/-- What stands beneath the siblings stays there. -/
theorem Offers.add (h : siblings.Offers nodes) (hadd : siblings.add root line outcome = .ok added) :
    added.Offers nodes := by
  cases outcome with
  | node node =>
    obtain ⟨other, hother, hoffers⟩ := h
    cases hrule : node.construct.isRule with
    | true =>
      obtain ⟨selectors, hselectors⟩ := Construct.exists_rule hrule
      rcases add_rule hselectors hadd with ⟨-, rfl⟩ | ⟨-, -, rfl⟩
      · exact ⟨other, List.mem_cons_of_mem _ hother, hoffers⟩
      · exact ⟨other, hother, hoffers⟩
    | false =>
      obtain ⟨-, rfl⟩ := add_node hrule hadd
      exact ⟨other, List.mem_cons_of_mem _ hother, hoffers⟩
  | nodes all =>
    obtain ⟨other, hother, hoffers⟩ := h
    obtain ⟨-, rfl⟩ := add_nodes hadd
    exact ⟨other, List.mem_append_right _ hother, hoffers⟩
  | branch branch =>
    obtain ⟨_, -, hadd⟩ := bind_eq_ok.mp hadd
    cases hadd
    exact offers_addBranch h

end Siblings

namespace Assembly

variable {services : Services σ E} {directories : List Text} {root afterConditional : Bool}
  {siblings added : Siblings E} {line : Line} {lines : List Line} {completed : Outcome E}
  {nodes : List (Node E)} {state next : σ}

theorem isComment_of_saying
    (h : Yields (saying services directories afterConditional line) state completed next) :
    completed.isComment = line.isComment := by
  obtain ⟨reading, outcome, middle, hread, hresolve, hcompletes⟩ := yields_saying.mp h
  unfold Line.isComment
  rw [Reading.ofLine_true hread]
  dsimp only
  rw [Reading.isComment_of_resolve hresolve]
  cases hcompletes <;> rfl

/-- The lines beneath a line give nodes beneath what the line is put into. -/
theorem offers_of_line
    (h : Yields (Assembly.line services directories root siblings line) state added next)
    (hcomment : line.isComment = false) (hchildren : line.children ≠ []) :
    ∃ inner start stop, added.Offers inner ∧
      Yields (level services directories false line.children) start inner stop := by
  obtain ⟨outcome, hsaid, hadd⟩ := says_of_line h
  cases outcome with
  | node node =>
    have hother := isComment_of_saying hsaid.said
    obtain ⟨-, -, -, hlevel⟩ := hsaid.node rfl
    obtain ⟨start, hlevel⟩ := hlevel (hother.trans hcomment)
    refine ⟨node.children, start, next, ?_, hlevel⟩
    cases hrule : node.construct.isRule with
    | true =>
      obtain ⟨selectors, hselectors⟩ := Construct.exists_rule hrule
      rcases Siblings.add_rule hselectors hadd with ⟨-, rfl⟩ | ⟨-, hnone, -⟩
      · exact ⟨_, List.mem_cons_self, .inl rfl⟩
      · -- a rule that goes on has nothing beneath it
        exact absurd ((level_eq_nil_iff hlevel).mp hnone) hchildren
    | false =>
      obtain ⟨-, rfl⟩ := Siblings.add_node hrule hadd
      exact ⟨node, List.mem_cons_self, .inl rfl⟩
  | nodes all => exact absurd (hsaid.nodes rfl).1 hchildren
  | branch branch =>
    obtain ⟨hcond, -, -, start, hlevel⟩ := hsaid.branch rfl
    obtain ⟨node, older, -, -, -, rfl⟩ := Siblings.add_branch hcond hadd
    refine ⟨branch.children, start, next, ?_, hlevel⟩
    exact ⟨_, List.mem_cons_self, .inr ⟨branch, List.mem_append_right _ List.mem_cons_self, rfl⟩⟩

/-- Nor do lines that are assembled behind. -/
theorem offers_forest
    (h : Yields (forest services directories root siblings lines) state added next)
    (hoffers : siblings.Offers nodes) : added.Offers nodes := by
  induction lines generalizing siblings state with
  | nil =>
    rw [forest_nil h]
    exact hoffers
  | cons first rest ih =>
    obtain ⟨between, middle, hfirst, hrest⟩ := forest_cons h
    obtain ⟨outcome, -, hadd⟩ := says_of_line hfirst
    exact ih hrest (hoffers.add hadd)

/-- The lines beneath a line give a level of the nodes, wherever the line stands. -/
theorem offers_of_forest
    (h : Yields (forest services directories root siblings lines) state added next)
    (hline : line ∈ lines) (hcomment : line.isComment = false) (hchildren : line.children ≠ []) :
    ∃ inner start stop, added.Offers inner ∧
      Yields (level services directories false line.children) start inner stop := by
  induction lines generalizing siblings state with
  | nil => exact absurd hline List.not_mem_nil
  | cons first rest ih =>
    obtain ⟨between, middle, hfirst, hrest⟩ := forest_cons h
    rcases List.mem_cons.mp hline with rfl | hline
    · obtain ⟨inner, start, stop, hoffers, hlevel⟩ := offers_of_line hfirst hcomment hchildren
      exact ⟨inner, start, stop, offers_forest hrest hoffers, hlevel⟩
    · exact ih hrest hline

/-- The lines beneath a line of a level give a level beneath the nodes of that level. -/
theorem level_beneath (h : Yields (level services directories root lines) state nodes next)
    (hline : line ∈ lines) (hcomment : line.isComment = false) (hchildren : line.children ≠ []) :
    ∃ node ∈ nodes, ∃ inner start stop, node.Offers inner ∧
      Yields (level services directories false line.children) start inner stop := by
  obtain ⟨siblings, hforest, hfinish⟩ := yields_level.mp h
  obtain ⟨-, rfl⟩ := Siblings.finish_eq_ok.mp hfinish
  obtain ⟨inner, start, stop, ⟨node, hnode, hoffers⟩, hlevel⟩ :=
    offers_of_forest hforest hline hcomment hchildren
  exact ⟨node, List.mem_reverse.mpr hnode, inner, start, stop, hoffers, hlevel⟩

end Assembly

/-! ## Documents -/

/-- Every level of lines is assembled by itself, and gives a level of the document. -/
theorem Document.exists_level {services : Services σ E} {directories : List Text} {document : Document E}
    {forest level : List Line} {state next : σ}
    (hroot : Yields (Assembly.level services directories true forest) state document.children next)
    (h : Line.IsLevel forest level) (hne : level ≠ []) :
    ∃ root start nodes stop, document.IsLevel nodes ∧
      Yields (Assembly.level services directories root level) start nodes stop := by
  induction h with
  | root => exact ⟨true, state, document.children, next, .root, hroot⟩
  | beneath _ hline hcomment ih =>
    obtain ⟨root, start, nodes, stop, hnodes, hlevel⟩ := ih (List.ne_nil_of_mem hline)
    obtain ⟨node, hnode, inner, start', stop', hoffers, hinner⟩ :=
      Assembly.level_beneath hlevel hline hcomment hne
    exact ⟨false, start', inner, stop', hnodes.of_offers hnode hoffers, hinner⟩

end Stylesheet
