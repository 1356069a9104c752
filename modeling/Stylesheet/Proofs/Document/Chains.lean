import Stylesheet.Proofs.Document.Concatenation
import Stylesheet.Proofs.Document.InPlace
import Stylesheet.Proofs.Document.Kinds
import Stylesheet.Proofs.Document.Levels

/-!
# Chains of branches

The line of an alternative branch stands right behind that of a condition or of another branch. A
condition and the branches behind it are one node.

- `Assembly.branch_of_line`: all that the line of a branch does to the siblings in front of it;
  `Assembly.precedes` tells the line that such a line stands behind.
- `Assembly.forest_of_onto`: what lines give behind siblings, they give without others in front of
  these.
- `Assembly.GivesBranches`: the branches that lines give one after the other.
- `Assembly.chain_of_level`: the node of a condition and of the branches behind it.
- `Document.alternatives_chained`: a branch is attached in place or nothing changes, and every level
  of a document that is read is made of such chains.
-/

namespace Stylesheet

open Parsing

variable {σ E : Type}

/-! ## The lines of conditions -/

/-- Whether a line is a condition of its own. -/
def Outcome.isCondition : Outcome E → Bool
  | .node single => single.isConditional
  | _ => false

theorem Reading.isCondition_of_resolve {services : Services σ E} {directories : List Text} {line : Line}
    {reading : Reading} {outcome : Outcome E} {state next : σ}
    (h : Yields (reading.resolve services directories line) state outcome next) :
    reading.isCondition = outcome.isCondition := by
  match reading, h with
  | .construct c, h =>
    obtain ⟨filled, _, hfilled, h⟩ := yields_bind.mp h
    obtain ⟨rfl, -⟩ := yields_pure.mp h
    exact (Construct.kind_of_traverse hfilled).2.2.symm
  | .definition _ _, h | .imports _, h | .branch (some _), h =>
    obtain ⟨_, _, -, h⟩ := yields_bind.mp h
    obtain ⟨rfl, -⟩ := yields_pure.mp h
    rfl
  | .branch none, h =>
    obtain ⟨rfl, -⟩ := yields_pure.mp h
    rfl

theorem Construct.isConditional_of_isImport {c : Construct E} (h : c.isImport = true) :
    c.isConditional = false := by
  match c, h with
  | .fileImport _, _ | .cssImport _, _ => rfl

/-- The line of a condition is not that of an alternative branch. -/
theorem Line.isAlternative_of_isCondition {t : Text} (h : isCondition t = true) :
    isAlternative t = false := by
  unfold isCondition at h
  unfold isAlternative
  rw [Bool.and_eq_true, beq_iff_eq, beq_iff_eq] at h
  rw [h.1, h.2]
  rfl

namespace Assembly

variable {services : Services σ E} {directories : List Text} {root afterConditional : Bool}
  {siblings added : Siblings E} {line head : Line} {front back lines branches : List Line}
  {completed : Outcome E} {node : Node E} {nodes older : List (Node E)} {state next : σ}

/-- A line says a condition if and only if it is that of one. -/
theorem isCondition_of_saying
    (h : Yields (saying services directories afterConditional line) state completed next) :
    completed.isCondition = Line.isCondition line.text := by
  obtain ⟨reading, outcome, middle, hread, hresolve, hcompletes⟩ := yields_saying.mp h
  rw [← Reading.isCondition_of_ofLine hread, Reading.isCondition_of_resolve hresolve]
  cases hcompletes <;> rfl

/-- A condition is put behind the others as a node without branches. -/
theorem condition_of_line (hcondition : Line.isCondition line.text = true)
    (h : Yields (Assembly.line services directories root siblings line) state added next) :
    ∃ node, siblings.pending = none ∧ added = { siblings with placed := node :: siblings.placed } ∧
      node.isConditional = true ∧ node.branches = [] := by
  obtain ⟨outcome, hsaid, hadd⟩ := says_of_line h
  have hkind := (isCondition_of_saying hsaid.said).trans hcondition
  match outcome, hkind with
  | .node node, hkind =>
    have hrule : node.construct.isRule = false := by
      cases hconstruct : node.construct with
      | rule selectors =>
        rw [Outcome.isCondition, Node.isConditional, hconstruct] at hkind
        cases hkind
      | _ => rfl
    obtain ⟨hpending, rfl⟩ := Siblings.add_node hrule hadd
    exact ⟨node, hpending, rfl, hkind, (hsaid.node rfl).2.2.1⟩

/-- A branch is put behind those of the condition in front of it. -/
theorem branch_of_line (halternative : Line.isAlternative line.text = true)
    (h : Yields (Assembly.line services directories root siblings line) state added next) :
    ∃ node older branch, siblings.pending = none ∧ siblings.placed = node :: older ∧
      node.isConditional = true ∧ GivesBranch services directories line state branch next ∧
      added = { siblings with placed := node.addBranch branch :: older } := by
  obtain ⟨outcome, hsaid, hadd⟩ := says_of_line h
  have hkind := (isBranch_of_saying hsaid.said).trans halternative
  match outcome, hkind with
  | .branch branch, _ =>
    obtain ⟨hcond, hgives⟩ := givesBranch_of_saying hsaid.said
    obtain ⟨node, older, hplaced, hnode, hpending, hadded⟩ := Siblings.add_branch hcond hadd
    exact ⟨node, older, branch, hpending, hplaced, hnode, hgives, hadded⟩

/-! ## Lines in front of others -/

/-- Lines that are assembled can be cut in two at any place. -/
theorem forest_split
    (h : Yields (forest services directories root siblings (front ++ back)) state added next) :
    ∃ between middle, Yields (forest services directories root siblings front) state between middle ∧
      Yields (forest services directories root between back) middle added next := by
  induction front generalizing siblings state with
  | nil => exact ⟨siblings, state, by rw [forest]; exact yields_pure.mpr ⟨rfl, rfl⟩, h⟩
  | cons first rest ih =>
    obtain ⟨after, point, hfirst, hrest⟩ := forest_cons h
    obtain ⟨between, middle, hfront, hback⟩ := ih hrest
    refine ⟨between, middle, ?_, hback⟩
    rw [forest]
    exact yields_bind.mpr ⟨after, point, hfirst, hfront⟩

/-- Where the newest node is a condition, the last line is that of one, or of a branch. -/
theorem written_of_line
    (h : Yields (Assembly.line services directories root siblings line) state added next)
    (hpending : added.pending = none) (hcond : added.afterConditional = true) :
    Line.isCondition line.text = true ∨ Line.isAlternative line.text = true := by
  obtain ⟨outcome, hsaid, hadd⟩ := says_of_line h
  cases outcome with
  | node node =>
    have hkind := isCondition_of_saying hsaid.said
    cases hrule : node.construct.isRule with
    | true =>
      obtain ⟨selectors, hselectors⟩ := Construct.exists_rule hrule
      rcases Siblings.add_rule hselectors hadd with ⟨-, rfl⟩ | ⟨-, -, rfl⟩
      · cases hcond
      · cases hpending
    | false =>
      obtain ⟨-, rfl⟩ := Siblings.add_node hrule hadd
      exact .inl (hkind.symm.trans hcond)
  | nodes all =>
    -- the last node of an import is no condition
    obtain ⟨-, hne, himports⟩ := hsaid.nodes rfl
    have hlast := himports _ (List.getLast_mem hne)
    rw [Siblings.afterConditional_add hadd, Outcome.leaves, List.getLast?_eq_some_getLast hne] at hcond
    have hother : (all.getLast hne).isConditional = false := Construct.isConditional_of_isImport hlast
    rw [Option.map_some, hother] at hcond
    cases hcond
  | branch branch => exact .inr (isBranch_of_saying hsaid.said).symm

/-- The line of an alternative branch stands right behind that of a condition or of another
branch. -/
theorem precedes
    (h : Yields (level services directories root (front ++ line :: back)) state nodes next)
    (halternative : Line.isAlternative line.text = true) :
    ∃ before above, front = before ++ [above] ∧
      (Line.isCondition above.text = true ∨ Line.isAlternative above.text = true) := by
  obtain ⟨siblings, hforest, -⟩ := yields_level.mp h
  obtain ⟨between, middle, hfront, hback⟩ := forest_split hforest
  obtain ⟨after, _, hline, -⟩ := forest_cons hback
  obtain ⟨node, older, _, hpending, hplaced, hnode, -, -⟩ := branch_of_line halternative hline
  rcases List.eq_nil_or_concat front with rfl | ⟨before, above, rfl⟩
  · rw [forest_nil hfront] at hplaced
    cases hplaced
  · refine ⟨before, above, List.concat_eq_append, ?_⟩
    rw [List.concat_eq_append] at hfront
    obtain ⟨_, _, -, hlast⟩ := forest_split hfront
    obtain ⟨last, _, hlast, hnil⟩ := forest_cons hlast
    rw [forest_nil hnil] at hpending hplaced
    refine written_of_line hlast hpending ?_
    unfold Siblings.afterConditional
    rw [hplaced]
    exact hnode

/-- A line that is no alternative branch says the same wherever it stands. -/
theorem saying_eq (halternative : Line.isAlternative line.text = false) (afterConditional : Bool) :
    saying services directories afterConditional line = saying services directories false line := by
  unfold saying
  rw [Reading.ofLine_eq halternative]

/-- What a line gives behind siblings, it gives without others in front of these as well, unless it
is a branch of one of those. -/
theorem line_of_onto (base : List (Node E))
    (h : Yields (Assembly.line services directories root (siblings.onto base) line) state added next)
    (hown : siblings.placed ≠ [] ∨ Line.isAlternative line.text = false) :
    ∃ own, added = own.onto base ∧
      Yields (Assembly.line services directories root siblings line) state own next := by
  obtain ⟨outcome, hsaid, hadd⟩ := says_of_line h
  have hsame : saying services directories (siblings.onto base).afterConditional line =
      saying services directories siblings.afterConditional line := by
    rcases hown with hplaced | halternative
    · obtain ⟨placed, pending⟩ := siblings
      obtain ⟨node, older, rfl⟩ := List.exists_cons_of_ne_nil hplaced
      rfl
    · exact (saying_eq halternative _).trans (saying_eq halternative _).symm
  have hbranch : ∀ branch, outcome = .branch branch → siblings.placed ≠ [] := by
    rintro branch rfl
    refine hown.resolve_right fun halternative => ?_
    have hkind := isBranch_of_saying hsaid.said
    rw [halternative] at hkind
    cases hkind
  rw [Siblings.add_onto base hbranch] at hadd
  obtain ⟨own, hplace, rfl⟩ := map_eq_ok.mp hadd
  refine ⟨own, rfl, ?_⟩
  rw [line_eq, ← hsame]
  exact yields_bind.mpr ⟨outcome, next, hsaid.said, yields_lift.mpr ⟨hplace, rfl⟩⟩

/-- What lines give behind other nodes they give alone, unless their first branch belongs to those
nodes. -/
theorem forest_of_onto (base : List (Node E))
    (h : Yields (forest services directories root (siblings.onto base) lines) state added next)
    (hown : siblings.placed ≠ [] ∨ siblings.pending ≠ none ∨
      ∀ first, lines.head? = some first → Line.isAlternative first.text = false) :
    ∃ own, added = own.onto base ∧
      Yields (forest services directories root siblings lines) state own next := by
  induction lines generalizing siblings state with
  | nil =>
    rw [forest] at h
    obtain ⟨rfl, rfl⟩ := yields_pure.mp h
    exact ⟨siblings, rfl, by rw [forest]; exact yields_pure.mpr ⟨rfl, rfl⟩⟩
  | cons first rest ih =>
    obtain ⟨between, middle, hfirst, hrest⟩ := forest_cons h
    have hfirst' : siblings.placed ≠ [] ∨ Line.isAlternative first.text = false := by
      rcases hown with hplaced | hpending | hhead
      · exact .inl hplaced
      · -- no branch may stand behind a rule that goes on
        refine .inr (Bool.eq_false_iff.mpr fun halternative => ?_)
        obtain ⟨_, _, _, hnone, -⟩ := branch_of_line halternative hfirst
        exact hpending hnone
      · exact .inr (hhead first rfl)
    obtain ⟨own, rfl, hline⟩ := line_of_onto base hfirst hfirst'
    obtain ⟨outcome, hsaid, hadd⟩ := says_of_line hline
    have hused := used_of_add hsaid hadd
    obtain ⟨last, rfl, hlast⟩ := ih hrest (hused.imp_right .inl)
    refine ⟨last, rfl, ?_⟩
    rw [forest]
    exact yields_bind.mpr ⟨own, middle, hline, hlast⟩

/-! ## Chains -/

/-- Lines of alternative branches, each of which gives its branch. -/
inductive GivesBranches (services : Services σ E) (directories : List Text) :
    List Line → σ → List (Node E) → σ → Prop where
  | nil {state : σ} : GivesBranches services directories [] state [] state
  | cons {line : Line} {lines : List Line} {branch : Node E} {branches : List (Node E)}
    {state middle next : σ} (hfirst : GivesBranch services directories line state branch middle)
    (hrest : GivesBranches services directories lines middle branches next) :
    GivesBranches services directories (line :: lines) state (branch :: branches) next

/-- The branches behind a condition are put behind those that it has. -/
theorem branches_of_forest (hbranches : ∀ line ∈ lines, Line.isAlternative line.text = true)
    (h : Yields (forest services directories root ⟨node :: older, none⟩ lines) state added next) :
    ∃ given, GivesBranches services directories lines state given next ∧
      added = ⟨{ node with branches := node.branches ++ given } :: older, none⟩ := by
  induction lines generalizing node state with
  | nil =>
    rw [forest] at h
    obtain ⟨rfl, rfl⟩ := yields_pure.mp h
    obtain ⟨construct, site, children, branches⟩ := node
    exact ⟨[], .nil, by rw [List.append_nil]⟩
  | cons first rest ih =>
    obtain ⟨hfirst, hrest⟩ := List.forall_mem_cons.mp hbranches
    obtain ⟨between, middle, hline, hforest⟩ := forest_cons h
    obtain ⟨_, _, branch, -, hplaced, -, hgives, rfl⟩ := branch_of_line hfirst hline
    cases hplaced
    obtain ⟨given, hgiven, rfl⟩ := ih hrest hforest
    refine ⟨branch :: given, .cons hgives hgiven, ?_⟩
    rw [Node.addBranch, List.append_assoc]
    rfl

/-- A condition and the branches behind it are one node, with the branches in the order of their
lines. The lines in front of them and those behind them give the nodes around it. -/
def Chained (services : Services σ E) (directories : List Text) (root : Bool) (front : List Line)
    (head : Line) (branches back : List Line) (state : σ) (nodes : List (Node E)) (next : σ) : Prop :=
  ∃ older node given newer start middle stop,
    Yields (level services directories root front) state older start ∧
    Yields (level services directories root [head]) start [node] middle ∧
    node.isConditional = true ∧ node.branches = [] ∧
    GivesBranches services directories branches middle given stop ∧
    Yields (level services directories root back) stop newer next ∧
    nodes = older ++ { node with branches := given } :: newer

theorem ending_split
    (h : Yields (ending services directories root siblings (front ++ back)) state nodes next) :
    ∃ between middle, Yields (forest services directories root siblings front) state between middle ∧
      Yields (ending services directories root between back) middle nodes next := by
  obtain ⟨last, hforest, hfinish⟩ := yields_ending.mp h
  obtain ⟨between, middle, hfront, hback⟩ := forest_split hforest
  exact ⟨between, middle, hfront, yields_ending.mpr ⟨last, hback, hfinish⟩⟩

/-- Lines that do not start with a branch are a level of their own behind others, unless a rule goes
on there. -/
theorem level_of_ending
    (h : Yields (ending services directories root siblings lines) state nodes next)
    (hpending : siblings.pending = none)
    (hlines : ∀ first, lines.head? = some first → Line.isAlternative first.text = false) :
    ∃ newer, nodes = siblings.placed.reverse ++ newer ∧
      Yields (level services directories root lines) state newer next := by
  obtain ⟨last, hforest, hfinish⟩ := yields_ending.mp h
  rw [← Siblings.empty_onto hpending] at hforest
  obtain ⟨own, rfl, hown⟩ := forest_of_onto siblings.placed hforest (.inr (.inr hlines))
  obtain ⟨hclosed, rfl⟩ := Siblings.finish_eq_ok.mp hfinish
  refine ⟨own.placed.reverse, List.reverse_append, ?_⟩
  exact yields_level.mpr ⟨own, hown, Siblings.finish_eq_ok.mpr ⟨hclosed, rfl⟩⟩

/-- A condition and the branches behind it are one chain wherever they stand in a level. -/
theorem chain_of_level
    (h : Yields (level services directories root (front ++ head :: (branches ++ back))) state nodes next)
    (hhead : Line.isCondition head.text = true)
    (hbranches : ∀ line ∈ branches, Line.isAlternative line.text = true)
    (hback : ∀ first, back.head? = some first → Line.isAlternative first.text = false) :
    Chained services directories root front head branches back state nodes next := by
  obtain ⟨siblings, start, hfront, hrest⟩ := ending_split h
  have hsplit : head :: (branches ++ back) = [head] ++ (branches ++ back) := rfl
  rw [hsplit] at hrest
  -- the condition starts on a level of its own behind the lines in front of it
  have hpending : siblings.pending = none := by
    obtain ⟨_, _, hline, -⟩ := ending_split hrest
    obtain ⟨_, _, hline, -⟩ := forest_cons hline
    obtain ⟨_, hpending, -⟩ := condition_of_line hhead hline
    exact hpending
  have hfirst : ∀ first, ([head] ++ (branches ++ back)).head? = some first →
      Line.isAlternative first.text = false := by
    intro first hfirst
    cases hfirst
    exact Line.isAlternative_of_isCondition hhead
  obtain ⟨behind, rfl, hbehind⟩ := level_of_ending hrest hpending hfirst
  obtain ⟨single, middle, hsingle, hchain⟩ := ending_split hbehind
  have hnode : ∃ node, single = ⟨[node], none⟩ ∧ node.isConditional = true ∧ node.branches = [] := by
    obtain ⟨_, _, hline, hnil⟩ := forest_cons hsingle
    obtain ⟨node, -, rfl, hnode⟩ := condition_of_line hhead hline
    exact ⟨node, forest_nil hnil, hnode⟩
  obtain ⟨node, rfl, hcondition, hnone⟩ := hnode
  -- its branches are put behind it, and what follows them is again a level of its own
  obtain ⟨grown, stop, hgrown, hlast⟩ := ending_split hchain
  obtain ⟨given, hgives, rfl⟩ := branches_of_forest hbranches hgrown
  obtain ⟨newer, rfl, hnewer⟩ := level_of_ending hlast rfl hback
  refine ⟨siblings.placed.reverse, node, given, newer, start, middle, stop, ?_, ?_, hcondition, hnone,
    hgives, hnewer, ?_⟩
  · exact yields_level.mpr ⟨siblings, hfront, Siblings.finish_eq_ok.mpr ⟨hpending, rfl⟩⟩
  · exact yields_level.mpr ⟨_, hsingle, rfl⟩
  · rw [hnone]
    rfl

end Assembly

/-! ## Documents -/

namespace Document

open Assembly

/-- Reading the line of an alternative branch either fails, and then all that stands in front of it
is as it was, or it attaches one branch behind those of the newest node, which is a condition. Where
the newest node is one and the branch can be read, it does not fail. Reading all lines in place does
what assembling them does. In a document that is read, at any depth, the line of an alternative
branch stands right behind that of a condition or of another branch, and a condition and the
branches behind it are one node with these branches in their order. -/
theorem alternatives_chained (services : Services σ E) :
    (∀ directories line siblings outer state, Line.isAlternative line.text = true →
      let classified := (Draft.classify services directories
        (Draft.forest services directories false line.children) line).outcome ⟨siblings :: outer, state⟩
      ((∃ e next inner, classified = (.error e, ⟨inner ++ siblings :: outer, next⟩)) ∨
        ∃ node older branch next, siblings.placed = node :: older ∧ node.isConditional = true ∧
          GivesBranch services directories line state branch next ∧
          classified = (.ok none,
            ⟨{ siblings with placed := node.addBranch branch :: older } :: outer, next⟩)) ∧
      ∀ node older branch next, siblings.placed = node :: older → node.isConditional = true →
        GivesBranch services directories line state branch next →
        classified = (.ok none,
          ⟨{ siblings with placed := node.addBranch branch :: older } :: outer, next⟩)) ∧
    (∀ directories root lines, Draft.Mirrors (Draft.forest services directories root lines)
      fun siblings => Assembly.forest services directories root siblings lines) ∧
    ∀ overrides source state document next,
      Yields (parseWith services overrides source) state document next →
      ∃ lines trees after,
        Line.ofSource source overrides.resolve.firstLine overrides.resolve.filename = .ok lines ∧
        Line.nest lines 0 = .ok (trees, after) ∧
        ∀ siblings, Line.IsLevel trees siblings → siblings ≠ [] →
          ∃ root start nodes stop, document.IsLevel nodes ∧
            Yields (level services overrides.resolve.searchPath root siblings) start nodes stop ∧
            (∀ front line back, siblings = front ++ line :: back →
              Line.isAlternative line.text = true → ∃ before above, front = before ++ [above] ∧
                (Line.isCondition above.text = true ∨ Line.isAlternative above.text = true)) ∧
            ∀ front head branches back, siblings = front ++ head :: (branches ++ back) →
              Line.isCondition head.text = true →
              (∀ line ∈ branches, Line.isAlternative line.text = true) →
              (∀ first, back.head? = some first → Line.isAlternative first.text = false) →
              Chained services overrides.resolve.searchPath root front head branches back start nodes
                stop := by
  refine ⟨fun directories line siblings outer state halternative =>
      ⟨Draft.classify_alternative halternative siblings outer state,
        fun node older branch next hplaced hnode hgives =>
          Draft.classify_of_givesBranch halternative hplaced hnode hgives outer⟩,
    fun directories root lines => Draft.forest_mirrors root lines,
    fun overrides source state document next h => ?_⟩
  obtain ⟨lines, trees, after, last, hlines, hnest, hforest, hfinish, -⟩ := steps_of_parseWith h
  refine ⟨lines, trees, after, hlines, hnest, fun siblings hlevel hne => ?_⟩
  -- every level of lines, at any depth, gives a level of nodes of the document
  obtain ⟨root, start, nodes, stop, hnodes, hyields⟩ :=
    exists_level (yields_level.mpr ⟨last, hforest, hfinish⟩) hlevel hne
  refine ⟨root, start, nodes, stop, hnodes, hyields, ?_, ?_⟩
  · rintro front line back rfl halternative
    exact precedes hyields halternative
  · rintro front head branches back rfl hhead hbranches hback
    exact chain_of_level hyields hhead hbranches hback

/-- A branch behind a condition, and a condition with two branches, beneath one of which stands
another condition with a branch. -/
theorem alternatives_of_nested_source :
    let services : Services Unit Expression := .standard ⟨['/'], .empty⟩
    let directories := ({} : Overrides).resolve.searchPath
    let source : Text :=
      "@if $x\n  a\n@else if $y\n  @if $z\n    b\n  @else\n    c\n@else\n  d"
    let node : Node Expression := ⟨.conditional none, ⟨1, none⟩, [], []⟩
    (∃ branch,
      (Draft.classify services directories (Draft.forest services directories false [])
          ⟨"@else", 0, 2, 0, none, []⟩).outcome ⟨[⟨[node], none⟩], ()⟩ =
        (.ok none, ⟨[⟨[node.addBranch branch], none⟩], ()⟩)) ∧
    ∃ document lines head second third after root start nodes stop,
      parse ⟨['/'], .empty⟩ {} source = .ok document ∧
      Line.ofSource source 1 none = .ok lines ∧
      Line.nest lines 0 = .ok ([head, second, third], after) ∧ document.IsLevel nodes ∧
      Chained services directories root [] head [second, third] [] start nodes stop := by
  intro services directories source node
  obtain ⟨hclassify, -, hchains⟩ := alternatives_chained services
  constructor
  · have hok : ((Draft.classify services directories (Draft.forest services directories false [])
        ⟨"@else", 0, 2, 0, none, []⟩).outcome ⟨[⟨[node], none⟩], ()⟩).1 = .ok none := rfl
    rcases (hclassify directories ⟨"@else", 0, 2, 0, none, []⟩ ⟨[node], none⟩ [] () (by decide)).1 with
      ⟨e, next, inner, herror⟩ | ⟨newest, older, branch, next, hplaced, -, -, hattached⟩
    · rw [herror] at hok
      cases hok
    · cases hplaced
      exact ⟨branch, hattached⟩
  · let texts : List Text := ["@if $x", "@else if $y", "@else"]
    have hread : (parse ⟨['/'], .empty⟩ {} source).map (fun document => document.children.length) =
        .ok 1 := by
      decide +kernel
    have hnested : (do
        let lines ← Line.ofSource source 1 none
        let nested ← Line.nest lines 0
        return nested.1.map Line.text : Except SyntaxError (List Text)) = .ok texts := by
      decide +kernel
    obtain ⟨document, hparse, -⟩ := map_eq_ok.mp hread
    obtain ⟨lines, trees, after, hlines, hnest, hlevels⟩ := hchains {} source () document ()
      (parse_eq_ok.mp hparse)
    have hlines' : Line.ofSource source 1 none = .ok lines := hlines
    have htrees : trees.map Line.text = texts := by
      rw [hlines'] at hnested
      have hnested : (do
          let nested ← Line.nest lines 0
          return nested.1.map Line.text : Except SyntaxError (List Text)) = _ := hnested
      rw [hnest] at hnested
      exact Except.ok.inj hnested
    obtain ⟨head, _, rfl, hhead, htrees⟩ := List.map_eq_cons_iff.mp htrees
    obtain ⟨second, _, rfl, hsecond, htrees⟩ := List.map_eq_cons_iff.mp htrees
    obtain ⟨third, _, rfl, hthird, htrees⟩ := List.map_eq_cons_iff.mp htrees
    cases List.map_eq_nil_iff.mp htrees
    obtain ⟨root, start, nodes, stop, hnodes, -, -, hchained⟩ :=
      hlevels _ .root (List.cons_ne_nil _ _)
    refine ⟨document, lines, head, second, third, after, root, start, nodes, stop, hparse, hlines',
      hnest, hnodes, hchained [] head [second, third] [] rfl ?_ ?_ nofun⟩
    · rw [hhead]
      decide
    · intro line hmem
      rcases List.mem_cons.mp hmem with rfl | hmem
      · rw [hsecond]
        decide
      · rw [List.mem_singleton.mp hmem, hthird]
        decide

end Document

end Stylesheet
