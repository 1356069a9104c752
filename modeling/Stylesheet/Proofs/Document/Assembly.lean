import Stylesheet.Document.Parse
import Stylesheet.Proofs.Document.Reading

/-!
# The steps of an assembly

Putting a line behind its siblings takes four steps: the line is read, the services answer, the
lines beneath it are assembled, and the outcome is added to the siblings.

- `Assembly.Completes`: the third step, which gives an outcome the nodes beneath it.
- `Assembly.line_steps`, `Assembly.forest_cons`: every assembly that succeeds is made of such steps,
  and `Assembly.line_of_steps` puts them together again.
- `Document.steps_of_parseWith`, `Document.parseWith_of_steps`: so is the reading of a document, and
  `Document.parse_eq_ok` says the same of `Document.parse`.
-/

namespace Stylesheet

open Parsing

variable {σ E : Type} {services : Services σ E} {directories : List Text} {root : Bool}
  {siblings added : Siblings E} {state next : σ}

/-! ## Adding to siblings -/

namespace Siblings

theorem pending_of_closed {u : Unit} (h : siblings.closed = .ok u) : siblings.pending = none := by
  unfold closed at h
  split at h
  · assumption
  · cases h

/-- A list of siblings can end if and only if no rule goes on. -/
theorem finish_eq_ok {nodes : List (Node E)} :
    siblings.finish = .ok nodes ↔ siblings.pending = none ∧ siblings.placed.reverse = nodes := by
  constructor
  · intro h
    obtain ⟨_, hclosed, h⟩ := bind_eq_ok.mp h
    cases h
    exact ⟨pending_of_closed hclosed, rfl⟩
  · rintro ⟨hpending, rfl⟩
    unfold finish closed
    rw [hpending]
    rfl

/-- Placing a node changes nothing else. -/
theorem eq_of_place {line : Line} {node : Node E} (h : siblings.place root line node = .ok added) :
    added = { siblings with placed := node :: siblings.placed } := by
  unfold place at h
  split at h
  · cases h
  · cases h
    rfl

theorem eq_of_placeAll {line : Line} {nodes : List (Node E)}
    (h : nodes.foldlM (fun siblings node => siblings.place root line node) siblings = .ok added) :
    added = { siblings with placed := nodes.reverse ++ siblings.placed } := by
  induction nodes generalizing siblings with
  | nil =>
    cases h
    rfl
  | cons node nodes ih =>
    rw [List.foldlM_cons] at h
    obtain ⟨middle, hplace, h⟩ := bind_eq_ok.mp h
    rw [ih h, eq_of_place hplace, List.reverse_cons, List.append_assoc]
    rfl

/-- A node that is no rule ends nothing and is put behind the others. -/
theorem add_node {line : Line} {node : Node E} (hrule : node.construct.isRule = false)
    (h : siblings.add root line (.node node) = .ok added) :
    siblings.pending = none ∧ added = { siblings with placed := node :: siblings.placed } := by
  unfold add at h
  dsimp only at h
  split at h
  · rename_i heq
    rw [heq] at hrule
    cases hrule
  · obtain ⟨_, hclosed, hplace⟩ := bind_eq_ok.mp h
    exact ⟨pending_of_closed hclosed, eq_of_place hplace⟩

/-- The rule that goes on, with more selectors, or else a new one. -/
def extended (siblings : Siblings E) (selectors : List Text) (site : Site) : OpenRule :=
  match siblings.pending with
  | none => ⟨selectors, site⟩
  | some rule => ⟨rule.selectors ++ selectors, rule.site⟩

/-- A rule either ends the one that goes on, or goes on itself and has nothing beneath it. -/
theorem add_rule {line : Line} {node : Node E} {selectors : List Text}
    (hrule : node.construct = .rule selectors)
    (h : siblings.add root line (.node node) = .ok added) :
    (OpenRule.goesOn selectors = false ∧
      added =
        { placed :=
            { node with
              construct := .rule (siblings.extended selectors node.site).selectors
              site := (siblings.extended selectors node.site).site } :: siblings.placed
          pending := none }) ∨
    (OpenRule.goesOn selectors = true ∧ node.children = [] ∧
      added = { siblings with pending := some (siblings.extended selectors node.site) }) := by
  have h : siblings.addRule line selectors node = .ok added := by
    unfold add at h
    dsimp only at h
    rw [hrule] at h
    exact h
  -- whether the rule ends is asked first, and only one that goes on is asked for lines beneath it
  unfold addRule at h
  dsimp only at h
  unfold extended
  split at h
  · rename_i hends
    cases h
    exact .inl ⟨by simpa using hends, rfl⟩
  · rename_i hgoes
    split at h
    · rename_i hempty
      cases h
      exact .inr ⟨by simpa using hgoes, List.isEmpty_iff.mp hempty, rfl⟩
    · cases h

/-- The nodes of an import are placed in turn, and no rule may go on in front of them. -/
theorem add_nodes {line : Line} {nodes : List (Node E)}
    (h : siblings.add root line (.nodes nodes) = .ok added) :
    siblings.pending = none ∧
      added = { siblings with placed := nodes.reverse ++ siblings.placed } := by
  obtain ⟨_, hclosed, hplace⟩ := bind_eq_ok.mp h
  exact ⟨pending_of_closed hclosed, eq_of_placeAll hplace⟩

/-- A branch is put behind those of the newest node, which is a condition. -/
theorem add_branch {line : Line} {branch : Node E} (hcond : siblings.afterConditional = true)
    (h : siblings.add root line (.branch branch) = .ok added) :
    ∃ node nodes, siblings.placed = node :: nodes ∧ node.isConditional = true ∧
      siblings.pending = none ∧
      added = { siblings with placed := node.addBranch branch :: nodes } := by
  obtain ⟨_, hclosed, hadd⟩ := bind_eq_ok.mp h
  cases hadd
  unfold afterConditional at hcond
  unfold addBranch
  cases hplaced : siblings.placed with
  | nil =>
    rw [hplaced] at hcond
    cases hcond
  | cons node nodes =>
    rw [hplaced] at hcond
    exact ⟨node, nodes, rfl, hcond, pending_of_closed hclosed, rfl⟩

end Siblings

/-! ## Assembling lines -/

namespace Assembly

/-- The third step: the nodes beneath a line, read from the lines beneath it. A comment keeps these
as text, and an import has none. -/
inductive Completes (services : Services σ E) (directories : List Text) (line : Line) (state : σ) :
    Outcome E → Outcome E → σ → Prop where
  | comment {node : Node E} (hcomment : node.construct.isComment = true) :
    Completes services directories line state (.node node) (.node node) state
  | node {node : Node E} {nested : Siblings E} {nodes : List (Node E)} {next : σ}
    (hcomment : node.construct.isComment = false)
    (hnested : Yields (forest services directories false {} line.children) state nested next)
    (hfinish : nested.finish = .ok nodes) :
    Completes services directories line state (.node node)
      (.node { node with children := nodes }) next
  | nodes {nodes : List (Node E)} :
    Completes services directories line state (.nodes nodes) (.nodes nodes) state
  | branch {branch : Node E} {nested : Siblings E} {nodes : List (Node E)} {next : σ}
    (hnested : Yields (forest services directories false {} line.children) state nested next)
    (hfinish : nested.finish = .ok nodes) :
    Completes services directories line state (.branch branch)
      (.branch { branch with children := nodes }) next

/-- A line that is assembled goes through four steps: it is read, its services are called, the lines
beneath it are assembled, and it is added to its siblings. -/
theorem line_steps {line : Line}
    (h : Yields (Assembly.line services directories root siblings line) state added next) :
    ∃ reading outcome completed middle,
      Reading.ofLine siblings.afterConditional line = .ok reading ∧
      Yields (reading.resolve services directories line) state outcome middle ∧
      Completes services directories line middle outcome completed next ∧
      siblings.add root line completed = .ok added := by
  obtain ⟨text, depth, index, offset, filename, children⟩ := line
  rw [Assembly.line] at h
  obtain ⟨reading, _, hread, h⟩ := yields_bind.mp h
  obtain ⟨hreading, rfl⟩ := yields_lift.mp hread
  obtain ⟨outcome, middle, houtcome, h⟩ := yields_bind.mp h
  refine ⟨reading, outcome, ?_⟩
  -- the third step depends on what the line puts in: only nodes and branches have lines beneath
  -- them
  cases outcome with
  | node node =>
    dsimp only at h
    split at h
    · rename_i hcomment
      obtain ⟨hadd, rfl⟩ := yields_lift.mp h
      exact ⟨_, middle, hreading, houtcome, .comment hcomment, hadd⟩
    · rename_i hcomment
      obtain ⟨nested, _, hnested, h⟩ := yields_bind.mp h
      obtain ⟨nodes, _, hnodes, h⟩ := yields_bind.mp h
      obtain ⟨hfinish, rfl⟩ := yields_lift.mp hnodes
      obtain ⟨hadd, rfl⟩ := yields_lift.mp h
      exact ⟨_, middle, hreading, houtcome, .node (by simpa using hcomment) hnested hfinish, hadd⟩
  | nodes nodes =>
    obtain ⟨hadd, rfl⟩ := yields_lift.mp h
    exact ⟨_, middle, hreading, houtcome, .nodes, hadd⟩
  | branch branch =>
    obtain ⟨nested, _, hnested, h⟩ := yields_bind.mp h
    obtain ⟨nodes, _, hnodes, h⟩ := yields_bind.mp h
    obtain ⟨hfinish, rfl⟩ := yields_lift.mp hnodes
    obtain ⟨hadd, rfl⟩ := yields_lift.mp h
    exact ⟨_, middle, hreading, houtcome, .branch hnested hfinish, hadd⟩

/-- The four steps make up the assembly of a line. -/
theorem line_of_steps {line : Line} {reading : Reading} {outcome completed : Outcome E} {middle : σ}
    (hreading : Reading.ofLine siblings.afterConditional line = .ok reading)
    (houtcome : Yields (reading.resolve services directories line) state outcome middle)
    (hcompletes : Completes services directories line middle outcome completed next)
    (hadd : siblings.add root line completed = .ok added) :
    Yields (Assembly.line services directories root siblings line) state added next := by
  obtain ⟨text, depth, index, offset, filename, children⟩ := line
  rw [Assembly.line]
  refine yields_bind.mpr ⟨reading, state, yields_lift.mpr ⟨hreading, rfl⟩, ?_⟩
  refine yields_bind.mpr ⟨outcome, middle, houtcome, ?_⟩
  cases hcompletes with
  | comment hcomment =>
    dsimp only
    rw [if_pos hcomment]
    exact yields_lift.mpr ⟨hadd, rfl⟩
  | node hcomment hnested hfinish =>
    dsimp only
    rw [if_neg (by simpa using hcomment)]
    refine yields_bind.mpr ⟨_, next, hnested, ?_⟩
    refine yields_bind.mpr ⟨_, next, yields_lift.mpr ⟨hfinish, rfl⟩, ?_⟩
    exact yields_lift.mpr ⟨hadd, rfl⟩
  | nodes => exact yields_lift.mpr ⟨hadd, rfl⟩
  | branch hnested hfinish =>
    refine yields_bind.mpr ⟨_, next, hnested, ?_⟩
    refine yields_bind.mpr ⟨_, next, yields_lift.mpr ⟨hfinish, rfl⟩, ?_⟩
    exact yields_lift.mpr ⟨hadd, rfl⟩

theorem forest_nil (h : Yields (forest services directories root siblings []) state added next) :
    added = siblings := by
  rw [forest] at h
  exact (yields_pure.mp h).1.symm

/-- The lines of a forest are assembled one after the other. -/
theorem forest_cons {first : Line} {rest : List Line}
    (h : Yields (forest services directories root siblings (first :: rest)) state added next) :
    ∃ between middle,
      Yields (Assembly.line services directories root siblings first) state between middle ∧
      Yields (forest services directories root between rest) middle added next := by
  rw [forest] at h
  exact yields_bind.mp h

end Assembly

/-! ## Reading documents -/

namespace Document

/-- A document that is read goes through three steps: lines, nested lines, nodes. -/
theorem steps_of_parseWith {overrides : Overrides} {source : Text} {document : Document E}
    (h : Yields (parseWith services overrides source) state document next) :
    ∃ lines trees after siblings,
      Line.ofSource source overrides.resolve.firstLine overrides.resolve.filename = .ok lines ∧
      Line.nest lines 0 = .ok (trees, after) ∧
      Yields (Assembly.forest services overrides.resolve.searchPath true {} trees) state siblings
        next ∧
      siblings.finish = .ok document.children ∧ document.options = overrides.resolve := by
  unfold parseWith at h
  dsimp only at h
  obtain ⟨nodes, _, hnodes, h⟩ := yields_bind.mp (yields_adapt.mp h)
  obtain ⟨rfl, rfl⟩ := yields_pure.mp h
  unfold Document.nodes at hnodes
  obtain ⟨lines, _, hread, hnodes⟩ := yields_bind.mp hnodes
  obtain ⟨hlines, rfl⟩ := yields_lift.mp hread
  obtain ⟨⟨trees, after⟩, _, hnested, hnodes⟩ := yields_bind.mp hnodes
  obtain ⟨hnest, rfl⟩ := yields_lift.mp hnested
  obtain ⟨siblings, _, hforest, hnodes⟩ := yields_bind.mp hnodes
  obtain ⟨hfinish, rfl⟩ := yields_lift.mp hnodes
  exact ⟨lines, trees, after, siblings, hlines, hnest, hforest, hfinish, rfl⟩

/-- The steps make up the reading of a document. -/
theorem parseWith_of_steps {overrides : Overrides} {source : Text} {lines trees : List Line}
    {after : Nat} {siblings : Siblings E} {nodes : List (Node E)}
    (hlines : Line.ofSource source overrides.resolve.firstLine overrides.resolve.filename = .ok lines)
    (hnest : Line.nest lines 0 = .ok (trees, after))
    (hforest : Yields (Assembly.forest services overrides.resolve.searchPath true {} trees) state
      siblings next)
    (hfinish : siblings.finish = .ok nodes) :
    Yields (parseWith services overrides source) state ⟨nodes, overrides.resolve⟩ next := by
  unfold parseWith
  refine yields_adapt.mpr (yields_bind.mpr ⟨nodes, next, ?_, yields_pure.mpr ⟨rfl, rfl⟩⟩)
  unfold Document.nodes
  refine yields_bind.mpr ⟨lines, state, yields_lift.mpr ⟨hlines, rfl⟩, ?_⟩
  refine yields_bind.mpr ⟨(trees, after), state, yields_lift.mpr ⟨hnest, rfl⟩, ?_⟩
  refine yields_bind.mpr ⟨siblings, next, hforest, yields_lift.mpr ⟨hfinish, rfl⟩⟩

/-- Reading with the standard services is reading with given ones that have no state. -/
theorem parse_eq_ok {fs : FileSystem} {overrides : Overrides} {source : Text}
    {document : Document Expression} :
    parse fs overrides source = .ok document ↔
      Yields (parseWith (.standard fs) overrides source) () document () := by
  constructor
  · intro h
    exact Prod.ext h rfl
  · intro h
    exact congrArg Prod.fst h

end Document

end Stylesheet
