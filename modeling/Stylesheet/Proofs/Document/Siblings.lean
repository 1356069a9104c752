import Stylesheet.Proofs.Document.Places

/-!
# The lines of a level

The lines of a level are put behind each other one by one, and each of them depends on those in
front of it only in whether a condition is the newest node.

- `Assembly.resolved`, `Assembly.saying`, `Assembly.level`: what a line says without and with the
  nodes beneath it, and the nodes of a level, as computations; `Assembly.saying_eq_bind` and
  `Assembly.line_eq` say where they occur.
- `Siblings.afterConditional_add`: what a line leaves behind for those that follow.
- `Assembly.Gives`: what the lines of a level give, each in its place; `Assembly.gives_of_forest` says
  that the lines of every level that is assembled do.
- `Assembly.level_eq_nil_iff`: a level has nodes just if it has lines.
-/

namespace Stylesheet

open Parsing

variable {σ E : Type}

/-! ## Levels as computations -/

namespace Assembly

variable (services : Services σ E) (directories : List Text)

/-- Puts lines behind their siblings, and ends the level there. -/
def ending (root : Bool) (siblings : Siblings E) (lines : List Line) : Parsing σ (List (Node E)) := do
  let siblings ← forest services directories root siblings lines
  siblings.finish

/-- The nodes of a level. -/
def level (root : Bool) (lines : List Line) : Parsing σ (List (Node E)) :=
  ending services directories root {} lines

/-- Gives what a line says the nodes beneath the line. -/
def complete (line : Line) : Outcome E → Parsing σ (Outcome E)
  | .node node =>
    if node.construct.isComment then return .node node
    else do
      let nodes ← level services directories false line.children
      return .node { node with children := nodes }
  | .nodes nodes => return .nodes nodes
  | .branch branch => do
    let nodes ← level services directories false line.children
    return .branch { branch with children := nodes }

/-- What a line says in its place, before the lines beneath it are read. -/
def resolved (afterConditional : Bool) (line : Line) : Parsing σ (Outcome E) := do
  let reading ← Reading.ofLine afterConditional line
  reading.resolve services directories line

/-- What a line says in its place, with the nodes beneath it. -/
def saying (afterConditional : Bool) (line : Line) : Parsing σ (Outcome E) := do
  let reading ← Reading.ofLine afterConditional line
  let outcome ← reading.resolve services directories line
  complete services directories line outcome

variable {services directories} {root afterConditional : Bool} {siblings added : Siblings E}
  {line : Line} {lines : List Line} {outcome completed : Outcome E} {state next : σ}

/-- What a line says is what it says by itself, completed by the lines beneath it. -/
theorem saying_eq_bind :
    saying services directories afterConditional line =
      resolved services directories afterConditional line >>= complete services directories line := by
  unfold saying resolved
  simp only [bind_assoc]

/-- A line that can be read says what its reading is resolved to. -/
theorem resolved_of_ofLine {reading : Reading}
    (h : Reading.ofLine afterConditional line = .ok reading) :
    resolved services directories afterConditional line =
      reading.resolve services directories line := by
  unfold resolved
  rw [h]
  rfl

/-- What a line says is put behind its siblings. -/
theorem line_eq :
    Assembly.line services directories root siblings line = (do
      let outcome ← saying services directories siblings.afterConditional line
      siblings.add root line outcome) := by
  unfold saying
  simp only [bind_assoc]
  obtain ⟨text, depth, index, offset, filename, children⟩ := line
  rw [Assembly.line]
  refine bind_congr fun reading => bind_congr fun outcome => ?_
  cases outcome with
  | node node =>
    dsimp only [complete]
    split
    · rw [pure_bind]
    · simp only [level, ending, bind_assoc, pure_bind]
  | nodes nodes => exact (pure_bind _ _).symm
  | branch branch => simp only [complete, level, ending, bind_assoc, pure_bind]

/-- A level ends where its lines end, if no rule goes on there. -/
theorem yields_ending {nodes : List (Node E)} :
    Yields (ending services directories root siblings lines) state nodes next ↔
      ∃ last, Yields (forest services directories root siblings lines) state last next ∧
        last.finish = .ok nodes := by
  unfold ending
  rw [yields_bind]
  constructor
  · rintro ⟨last, _, hforest, h⟩
    obtain ⟨hfinish, rfl⟩ := yields_lift.mp h
    exact ⟨last, hforest, hfinish⟩
  · rintro ⟨last, hforest, hfinish⟩
    exact ⟨last, next, hforest, yields_lift.mpr ⟨hfinish, rfl⟩⟩

/-- A level starts without siblings. -/
theorem yields_level {nodes : List (Node E)} :
    Yields (level services directories root lines) state nodes next ↔
      ∃ siblings, Yields (forest services directories root {} lines) state siblings next ∧
        siblings.finish = .ok nodes := yields_ending

/-- To complete an outcome is the third of the steps in which a line is assembled. -/
theorem yields_complete :
    Yields (complete services directories line outcome) state completed next ↔
      Completes services directories line state outcome completed next := by
  cases outcome with
  | node node =>
    -- a comment is complete by itself, and for any other node the level beneath it is read
    by_cases hcomment : node.construct.isComment = true
    · rw [complete, if_pos hcomment, yields_pure]
      constructor
      · rintro ⟨rfl, rfl⟩
        exact .comment hcomment
      · intro h
        cases h with
        | comment => exact ⟨rfl, rfl⟩
        | node hother => exact absurd hcomment (by simp [hother])
    · rw [complete, if_neg hcomment, yields_bind]
      constructor
      · rintro ⟨nodes, _, hlevel, h⟩
        obtain ⟨rfl, rfl⟩ := yields_pure.mp h
        obtain ⟨nested, hnested, hfinish⟩ := yields_level.mp hlevel
        exact .node (by simpa using hcomment) hnested hfinish
      · intro h
        cases h with
        | comment hother => exact absurd hother hcomment
        | node _ hnested hfinish =>
          exact ⟨_, next, yields_level.mpr ⟨_, hnested, hfinish⟩, yields_pure.mpr ⟨rfl, rfl⟩⟩
  | nodes nodes =>
    rw [complete, yields_pure]
    constructor
    · rintro ⟨rfl, rfl⟩
      exact .nodes
    · intro h
      cases h
      exact ⟨rfl, rfl⟩
  | branch branch =>
    rw [complete, yields_bind]
    constructor
    · rintro ⟨nodes, _, hlevel, h⟩
      obtain ⟨rfl, rfl⟩ := yields_pure.mp h
      obtain ⟨nested, hnested, hfinish⟩ := yields_level.mp hlevel
      exact .branch hnested hfinish
    · intro h
      cases h with
      | branch hnested hfinish =>
        exact ⟨_, next, yields_level.mpr ⟨_, hnested, hfinish⟩, yields_pure.mpr ⟨rfl, rfl⟩⟩

/-- Saying takes three steps. -/
theorem yields_saying :
    Yields (saying services directories afterConditional line) state completed next ↔
      ∃ reading outcome middle, Reading.ofLine afterConditional line = .ok reading ∧
        Yields (reading.resolve services directories line) state outcome middle ∧
        Completes services directories line middle outcome completed next := by
  unfold saying
  simp only [yields_bind, yields_lift, yields_complete]
  constructor
  · rintro ⟨reading, _, ⟨hread, rfl⟩, outcome, middle, hresolve, hcompletes⟩
    exact ⟨reading, outcome, middle, hread, hresolve, hcompletes⟩
  · rintro ⟨reading, outcome, middle, hread, hresolve, hcompletes⟩
    exact ⟨reading, state, ⟨hread, rfl⟩, outcome, middle, hresolve, hcompletes⟩

/-- A line says a branch if and only if it is that of one. -/
theorem isBranch_of_saying
    (h : Yields (saying services directories afterConditional line) state completed next) :
    completed.isBranch = Line.isAlternative line.text := by
  obtain ⟨reading, outcome, middle, hread, hresolve, hcompletes⟩ := yields_saying.mp h
  rw [← Reading.isBranch_of_ofLine hread, Reading.isBranch_of_resolve hresolve]
  cases hcompletes <;> rfl

end Assembly

/-! ## What lines leave behind -/

/-- Whether the construct is a rule that goes on with the next line. -/
def Construct.goesOn : Construct E → Bool
  | .rule selectors => OpenRule.goesOn selectors
  | _ => false

/-- A rule has selectors. -/
theorem Construct.exists_rule {c : Construct E} (h : c.isRule = true) :
    ∃ selectors, c = .rule selectors := by
  match c, h with
  | .rule selectors, _ => exact ⟨selectors, rfl⟩

theorem Construct.isRule_of_goesOn {c : Construct E} (h : c.goesOn = true) : c.isRule = true := by
  match c, h with
  | .rule _, _ => rfl

namespace Outcome

/-- Whether a line is a rule. -/
def isRule : Outcome E → Bool
  | .node single => single.construct.isRule
  | _ => false

/-- Whether a line is a rule that goes on with the next line. -/
def goesOn : Outcome E → Bool
  | .node single => single.construct.goesOn
  | _ => false

/-- Whether the newest node is a condition behind a line, given whether it is one in front of it. A
rule that goes on is no node yet. -/
def leaves (afterConditional : Bool) : Outcome E → Bool
  | .node single => if single.construct.goesOn then afterConditional else single.isConditional
  | .nodes all => (all.getLast?.map Node.isConditional).getD afterConditional
  | .branch _ => afterConditional

/-- What a line gives may only stand at the root, or the line stands there. -/
def MayStand (root : Bool) : Outcome E → Prop
  | .node single => single.construct.isRootOnly = true → root = true
  | .nodes all => ∀ each ∈ all, each.construct.isRootOnly = true → root = true
  | .branch _ => True

theorem isRule_of_goesOn {outcome : Outcome E} (h : outcome.goesOn = true) :
    outcome.isRule = true := by
  match outcome, h with
  | .node _, h => exact Construct.isRule_of_goesOn h

end Outcome

namespace Siblings

variable {siblings added : Siblings E} {root : Bool} {line : Line} {outcome : Outcome E}

/-- What has been added may stand where it does. -/
theorem mayStand_of_add (h : siblings.add root line outcome = .ok added) : outcome.MayStand root := by
  cases outcome with
  | node node => exact rootOnly_of_add h
  | nodes nodes =>
    obtain ⟨_, -, hplace⟩ := bind_eq_ok.mp h
    exact rootOnly_of_placeAll hplace
  | branch branch => trivial

/-- A node that may stand in its place is put there. -/
theorem place_of_mayStand {node : Node E} (h : node.construct.isRootOnly = true → root = true) :
    siblings.place root line node = .ok { siblings with placed := node :: siblings.placed } := by
  unfold place
  cases root with
  | true => rfl
  | false =>
    have hcause : rootOnly? node.construct = none :=
      Construct.rootOnly?_eq_none_iff.mpr (by simpa using h)
    rw [hcause]
    rfl

/-- So are the nodes of an import. -/
theorem placeAll_of_mayStand {nodes : List (Node E)}
    (h : ∀ node ∈ nodes, node.construct.isRootOnly = true → root = true) :
    nodes.foldlM (fun siblings node => siblings.place root line node) siblings =
      .ok { siblings with placed := nodes.reverse ++ siblings.placed } := by
  -- by induction on the nodes, each of which is put in front of those placed
  induction nodes generalizing siblings with
  | nil => rfl
  | cons node nodes ih =>
    obtain ⟨hnode, hnodes⟩ := List.forall_mem_cons.mp h
    rw [List.foldlM_cons, place_of_mayStand hnode]
    show nodes.foldlM _ _ = _
    rw [ih hnodes, List.reverse_cons, List.append_assoc]
    rfl

theorem addRule_of_construct {node : Node E} {selectors : List Text}
    (hrule : node.construct = .rule selectors) :
    siblings.add root line (.node node) = siblings.addRule line selectors node := by
  unfold add
  dsimp only
  rw [hrule]

/-- Whether the newest node is a condition is told by what the last line leaves behind. -/
theorem afterConditional_add (h : siblings.add root line outcome = .ok added) :
    added.afterConditional = outcome.leaves siblings.afterConditional := by
  cases outcome with
  | node node =>
    rw [Outcome.leaves]
    cases hrule : node.construct.isRule with
    | true =>
      obtain ⟨selectors, hselectors⟩ := Construct.exists_rule hrule
      have hgoes : node.construct.goesOn = OpenRule.goesOn selectors := by
        rw [hselectors]
        rfl
      rcases add_rule hselectors h with ⟨hends, rfl⟩ | ⟨hwaits, -, rfl⟩
      · rw [hgoes, hends, Node.isConditional, hselectors]
        rfl
      · rw [hgoes, hwaits, if_pos rfl]
        rfl
    | false =>
      -- only rules go on
      have hgoes : ¬node.construct.goesOn = true := fun hgoes => by
        rw [Construct.isRule_of_goesOn hgoes] at hrule
        cases hrule
      obtain ⟨-, rfl⟩ := add_node hrule h
      rw [if_neg hgoes]
      rfl
  | nodes nodes =>
    rw [Outcome.leaves]
    obtain ⟨-, rfl⟩ := add_nodes h
    cases hlast : nodes.getLast? with
    | none =>
      rw [List.getLast?_eq_none_iff.mp hlast]
      rfl
    | some last =>
      rw [← List.head?_reverse] at hlast
      obtain ⟨rest, hrest⟩ := List.head?_eq_some_iff.mp hlast
      rw [hrest]
      rfl
  | branch branch =>
    rw [Outcome.leaves]
    obtain ⟨_, -, hadd⟩ := bind_eq_ok.mp h
    cases hadd
    unfold afterConditional addBranch
    cases hplaced : siblings.placed with
    | nil => rw [hplaced]
    | cons node nodes => rfl

end Siblings

/-! ## The lines of a level -/

/-- A line among its siblings, and what it gives there. -/
structure Sibling (E : Type) where
  line : Line
  outcome : Outcome E

namespace Assembly

variable {services : Services σ E} {directories : List Text} {root afterConditional : Bool}
  {siblings added : Siblings E} {line : Line} {lines : List Line} {sibling : Sibling E}
  {state next : σ}

/-- The line is read and assembled in its place, and may stand there. -/
structure Says (services : Services σ E) (directories : List Text) (root afterConditional : Bool)
    (state : σ) (sibling : Sibling E) (next : σ) : Prop where
  said : Yields (saying services directories afterConditional sibling.line) state sibling.outcome next
  stands : sibling.outcome.MayStand root

/-- All lines of a level are read and assembled, each in its place. -/
inductive Gives (services : Services σ E) (directories : List Text) (root : Bool) :
    Bool → σ → List (Sibling E) → σ → Prop where
  | nil {afterConditional : Bool} {state : σ} :
    Gives services directories root afterConditional state [] state
  | cons {afterConditional : Bool} {first : Sibling E} {rest : List (Sibling E)} {state middle next : σ}
    (hfirst : Says services directories root afterConditional state first middle)
    (hrest : Gives services directories root (first.outcome.leaves afterConditional) middle rest next) :
    Gives services directories root afterConditional state (first :: rest) next

/-- A line that is put behind its siblings says something that is added to them. -/
theorem says_of_line (h : Yields (Assembly.line services directories root siblings line) state added next) :
    ∃ outcome, Says services directories root siblings.afterConditional state ⟨line, outcome⟩ next ∧
      siblings.add root line outcome = .ok added := by
  rw [line_eq] at h
  obtain ⟨outcome, _, hsaid, h⟩ := yields_bind.mp h
  obtain ⟨hadd, rfl⟩ := yields_lift.mp h
  exact ⟨outcome, ⟨hsaid, Siblings.mayStand_of_add hadd⟩, hadd⟩

/-- So do all lines of a forest, each behind those before it. -/
theorem gives_of_forest
    (h : Yields (forest services directories root siblings lines) state added next) :
    ∃ given : List (Sibling E), given.map Sibling.line = lines ∧
      Gives services directories root siblings.afterConditional state given next := by
  -- by induction on the lines, with the flag for alternatives carried along from line to line
  induction lines generalizing siblings state with
  | nil =>
    rw [forest] at h
    obtain ⟨-, rfl⟩ := yields_pure.mp h
    exact ⟨[], rfl, .nil⟩
  | cons first rest ih =>
    obtain ⟨between, middle, hfirst, hrest⟩ := forest_cons h
    obtain ⟨outcome, hsays, hadd⟩ := says_of_line hfirst
    obtain ⟨given, hgiven, hgives⟩ := ih hrest
    rw [Siblings.afterConditional_add hadd] at hgives
    exact ⟨⟨first, outcome⟩ :: given, congrArg (first :: ·) hgiven, .cons hsays hgives⟩

/-! ## What a line gives -/

/-- What a node on a line of its own is. -/
theorem Says.node {node : Node E} (h : Says services directories root afterConditional state sibling next)
    (hnode : sibling.outcome = .node node) :
    node.construct.Echoes sibling.line ∧ node.site = sibling.line.site ∧ node.branches = [] ∧
      (node.construct.isComment = false → ∃ middle,
        Yields (level services directories false sibling.line.children) middle node.children next) := by
  obtain ⟨reading, outcome, middle, hread, hresolve, hcompletes⟩ := yields_saying.mp h.said
  have hechoes := Reading.echoes_of_resolve (Reading.echoes_of_ofLine hread) hresolve
  rw [hnode] at hcompletes
  cases hcompletes with
  | comment hcomment =>
    obtain ⟨c, rfl, hc⟩ := hechoes
    exact ⟨hc, rfl, rfl, fun hother => absurd hother (by simp [hcomment])⟩
  | node hcomment hnested hfinish =>
    obtain ⟨c, rfl, hc⟩ := hechoes
    exact ⟨hc, rfl, rfl, fun _ => ⟨middle, yields_level.mpr ⟨_, hnested, hfinish⟩⟩⟩

/-- A line that gives nodes of its own kind is an import, with nothing beneath it. -/
theorem Says.nodes {nodes : List (Node E)}
    (h : Says services directories root afterConditional state sibling next)
    (hnodes : sibling.outcome = .nodes nodes) :
    sibling.line.children = [] ∧ nodes ≠ [] ∧ ∀ node ∈ nodes, node.construct.isImport = true := by
  obtain ⟨reading, outcome, middle, hread, hresolve, hcompletes⟩ := yields_saying.mp h.said
  have hechoes := Reading.echoes_of_resolve (Reading.echoes_of_ofLine hread) hresolve
  rw [hnodes] at hcompletes
  cases hcompletes
  refine ⟨hechoes.1, hechoes.2.1, fun node hnode => ?_⟩
  obtain ⟨c, rfl, himport⟩ := hechoes.2.2 node hnode
  exact himport

/-- What a branch is. -/
theorem Says.branch {branch : Node E}
    (h : Says services directories root afterConditional state sibling next)
    (hbranch : sibling.outcome = .branch branch) :
    afterConditional = true ∧ branch.site = sibling.line.site ∧ branch.branches = [] ∧
      ∃ middle,
        Yields (level services directories false sibling.line.children) middle branch.children next := by
  obtain ⟨reading, outcome, middle, hread, hresolve, hcompletes⟩ := yields_saying.mp h.said
  have hechoes := Reading.echoes_of_resolve (Reading.echoes_of_ofLine hread) hresolve
  rw [hbranch] at hcompletes
  cases hcompletes with
  | branch hnested hfinish =>
    obtain ⟨hcond, test, rfl⟩ := hechoes
    exact ⟨hcond, rfl, rfl, middle, yields_level.mpr ⟨_, hnested, hfinish⟩⟩

/-! ## Levels without nodes -/

/-- A line leaves a node behind, or a rule that goes on. -/
theorem used_of_add (h : Says services directories root siblings.afterConditional state sibling next)
    (hadd : siblings.add root line sibling.outcome = .ok added) :
    added.placed ≠ [] ∨ added.pending ≠ none := by
  -- a rule that goes on is the only line that leaves no node
  match houtcome : sibling.outcome, hadd with
  | .node node, hadd =>
    cases hrule : node.construct.isRule with
    | true =>
      obtain ⟨selectors, hselectors⟩ := Construct.exists_rule hrule
      rcases Siblings.add_rule hselectors hadd with ⟨-, rfl⟩ | ⟨-, -, rfl⟩
      · exact .inl (List.cons_ne_nil _ _)
      · exact .inr (Option.some_ne_none _)
    | false =>
      obtain ⟨-, rfl⟩ := Siblings.add_node hrule hadd
      exact .inl (List.cons_ne_nil _ _)
  | .nodes nodes, hadd =>
    obtain ⟨-, rfl⟩ := Siblings.add_nodes hadd
    exact .inl fun hnil => (h.nodes houtcome).2.1 (by simpa using (List.append_eq_nil_iff.mp hnil).1)
  | .branch branch, hadd =>
    obtain ⟨node, nodes, -, -, -, rfl⟩ := Siblings.add_branch (h.branch houtcome).1 hadd
    exact .inl (List.cons_ne_nil _ _)

/-- Lines that are read leave a node behind, or a rule that goes on. -/
theorem used_of_forest (hne : lines ≠ [])
    (h : Yields (forest services directories root siblings lines) state added next) :
    added.placed ≠ [] ∨ added.pending ≠ none := by
  induction lines generalizing siblings state with
  | nil => exact absurd rfl hne
  | cons first rest ih =>
    obtain ⟨between, middle, hfirst, hrest⟩ := forest_cons h
    cases rest with
    | nil =>
      obtain ⟨outcome, hsays, hadd⟩ := says_of_line hfirst
      rw [forest_nil hrest]
      exact used_of_add hsays hadd
    | cons second rest => exact ih (List.cons_ne_nil _ _) hrest

/-- A level that has lines has nodes. -/
theorem level_eq_nil_iff {nodes : List (Node E)}
    (h : Yields (level services directories root lines) state nodes next) : nodes = [] ↔ lines = [] := by
  obtain ⟨siblings, hforest, hfinish⟩ := yields_level.mp h
  obtain ⟨hpending, rfl⟩ := Siblings.finish_eq_ok.mp hfinish
  constructor
  · intro hnil
    by_contra hne
    rcases used_of_forest hne hforest with hplaced | hgoes
    · exact hplaced (List.reverse_eq_nil_iff.mp hnil)
    · exact hgoes hpending
  · rintro rfl
    rw [forest_nil hforest]
    rfl

end Assembly

end Stylesheet
