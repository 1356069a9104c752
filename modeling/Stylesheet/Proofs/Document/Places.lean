import Stylesheet.Proofs.Document.Accounts

/-!
# Every node of a document is in its place

A node stands at the root of a document, beneath another node, or as an alternative branch of a
condition. What may stand where, and with what beneath it, is the same at every depth.

- `Node.InPlace`: what is asked of a node at its place.
- `Siblings.InPlace`: the invariant of an assembly, in which the rule that goes on waits for its
  last selector.
- `inPlace_line`, `inPlace_forest`: the invariant survives one more line, or a forest of lines.
- `Document.inPlace_of_parseWith`: every node of a document is in its place, and in no other place.
-/

namespace Stylesheet

open Parsing

variable {σ E : Type}

/-! ## What is asked of a place -/

namespace Construct

/-- Whether the construct may only stand at the root of a document. -/
def isRootOnly : Construct E → Bool
  | .mixinDefinition _ _ | .fileImport _ | .cssImport _ => true
  | _ => false

/-- Whether nothing may stand beneath the construct. -/
def isLeaf : Construct E → Bool
  | .comment _ _ _ | .binding _ _ _ | .mixinInclude _ _ | .debug _ | .fileImport _
  | .cssImport _ => true
  | _ => false

/-- What may not stand below the root is told by the construct. -/
theorem rootOnly?_eq_none_iff {c : Construct E} :
    Siblings.rootOnly? c = none ↔ c.isRootOnly = false := by
  cases c <;> simp [Siblings.rootOnly?, isRootOnly]

end Construct

/-- Every selector but the last ends in a comma, and there is a last one. -/
def Selectors.Complete (selectors : List Text) : Prop :=
  ∃ front last, selectors = front ++ [last] ∧ (∀ selector ∈ front, selector.getLast? = some ',') ∧
    last.getLast? ≠ some ','

/-- What is asked of a node at its place in a document of given lines. -/
structure Node.InPlace (lines : List WrittenLine) (place : Node.Place) (node : Node E) : Prop where
  /-- Definitions of mixins and imports stand at the root. -/
  rootOnly : node.construct.isRootOnly = true → place = .root
  leaf : node.construct.isLeaf = true → node.children = []
  selectors : ∀ selectors, node.construct = .rule selectors → Selectors.Complete selectors
  /-- Only a branch goes without a test. -/
  tested : node.construct = .conditional none → place = .branch
  /-- A branch is a condition. -/
  conditional : place = .branch → node.isConditional = true
  /-- Only a condition that is no branch itself has branches. -/
  branches : node.branches ≠ [] → node.isConditional = true ∧ place ≠ .branch
  /-- Branches are those of the lines that say so, and no other line gives one. -/
  line : ∃ line ∈ lines, line.site = node.site ∧
    (Line.isAlternative line.text = true ↔ place = .branch)

/-! ## The invariant of an assembly -/

/-- All that a node holds is in its place. -/
def Node.AllInPlace (lines : List WrittenLine) (place : Node.Place) (node : Node E) : Prop :=
  ∀ inner other, Node.Holds place node inner other → other.InPlace lines inner

/-- A rule that goes on has selectors that all end in a comma, and starts on a line. -/
def OpenRule.InPlace (lines : List WrittenLine) (rule : OpenRule) : Prop :=
  (∀ selector ∈ rule.selectors, selector.getLast? = some ',') ∧
    ∃ line ∈ lines, line.site = rule.site ∧ Line.isAlternative line.text = false

/-- All that is held by the nodes put next to each other so far is in its place, and so is the rule
that goes on. -/
structure Siblings.InPlace (lines : List WrittenLine) (root : Bool) (siblings : Siblings E) : Prop where
  placed : ∀ node ∈ siblings.placed, node.AllInPlace lines (.ofRoot root)
  pending : ∀ rule, siblings.pending = some rule → rule.InPlace lines

theorem Siblings.inPlace_empty (lines : List WrittenLine) (root : Bool) :
    Siblings.InPlace lines root ({} : Siblings E) where
  placed _ h := absurd h List.not_mem_nil
  pending _ h := nomatch h

namespace Node

variable {lines : List WrittenLine} {place : Node.Place} {node branch : Node E}

/-- A node without branches, and what it holds. -/
theorem AllInPlace.of_children (hbranches : node.branches = []) (hnode : node.InPlace lines place)
    (hchildren : ∀ child ∈ node.children, child.AllInPlace lines .beneath) :
    node.AllInPlace lines place := by
  intro inner other h
  cases h with
  | self => exact hnode
  | beneath hchild h => exact hchildren _ hchild _ _ h
  | branch hbranch h =>
    rw [hbranches] at hbranch
    exact absurd hbranch List.not_mem_nil

/-- One more branch of a condition that is no branch. -/
theorem AllInPlace.addBranch (hnode : node.AllInPlace lines place)
    (hconditional : node.isConditional = true) (hplace : place ≠ .branch)
    (hbranch : branch.AllInPlace lines .branch) :
    (node.addBranch branch).AllInPlace lines place := by
  intro inner other h
  cases h with
  | self =>
    have hself := hnode place node .self
    exact ⟨hself.rootOnly, hself.leaf, hself.selectors, hself.tested, hself.conditional,
      fun _ => ⟨hconditional, hplace⟩, hself.line⟩
  | beneath hchild h => exact hnode _ _ (.beneath hchild h)
  | branch hmem h =>
    rcases List.mem_append.mp hmem with hmem | hmem
    · exact hnode _ _ (.branch hmem h)
    · rw [List.mem_singleton.mp hmem] at h
      exact hbranch _ _ h

end Node

namespace Siblings

variable {root : Bool} {siblings added : Siblings E} {line : Line}

/-- What is put behind the others stands at the root, or may stand beneath. -/
theorem rootOnly_of_place {node : Node E} (h : siblings.place root line node = .ok added) :
    node.construct.isRootOnly = true → root = true := by
  intro hroot
  unfold place at h
  cases root with
  | true => rfl
  | false =>
    cases hcause : rootOnly? node.construct with
    | none =>
      rw [Construct.rootOnly?_eq_none_iff.mp hcause] at hroot
      cases hroot
    | some cause =>
      rw [hcause] at h
      cases h

/-- Of several nodes, each that may only stand at the root is placed there. -/
theorem rootOnly_of_placeAll {nodes : List (Node E)}
    (h : nodes.foldlM (fun siblings node => siblings.place root line node) siblings = .ok added) :
    ∀ node ∈ nodes, node.construct.isRootOnly = true → root = true := by
  induction nodes generalizing siblings with
  | nil => exact fun node hnode => absurd hnode List.not_mem_nil
  | cons first rest ih =>
    rw [List.foldlM_cons] at h
    obtain ⟨middle, hplace, h⟩ := bind_eq_ok.mp h
    exact List.forall_mem_cons.mpr ⟨rootOnly_of_place hplace, ih h⟩

theorem rootOnly_of_add {node : Node E} (h : siblings.add root line (.node node) = .ok added) :
    node.construct.isRootOnly = true → root = true := by
  intro hroot
  unfold add at h
  dsimp only at h
  split at h
  · rename_i hrule
    rw [hrule] at hroot
    cases hroot
  · obtain ⟨_, -, hplace⟩ := bind_eq_ok.mp h
    exact rootOnly_of_place hplace hroot

/-- A rule that takes in one more selector has only selectors that end in a comma in front of it,
and keeps the line that it started on. -/
theorem InPlace.extended {lines : List WrittenLine} (h : siblings.InPlace lines root)
    (hline : line.written ∈ lines) (halternative : Line.isAlternative line.text = false)
    (selector : Text) :
    (∃ front, (siblings.extended [selector] line.site).selectors = front ++ [selector] ∧
      ∀ other ∈ front, other.getLast? = some ',') ∧
    ∃ start ∈ lines, start.site = (siblings.extended [selector] line.site).site ∧
      Line.isAlternative start.text = false := by
  unfold Siblings.extended
  cases hpending : siblings.pending with
  | none =>
    refine ⟨⟨[], rfl, fun other hother => absurd hother List.not_mem_nil⟩, ?_⟩
    exact ⟨line.written, hline, rfl, halternative⟩
  | some rule =>
    obtain ⟨hselectors, hstart⟩ := h.pending rule hpending
    exact ⟨⟨rule.selectors, rfl, hselectors⟩, hstart⟩

end Siblings

/-! ## Assembling lines -/

namespace Assembly

variable {services : Services σ E} {directories : List Text} {root : Bool}
  {siblings added : Siblings E} {state next : σ} {line : Line} {lines : List WrittenLine}

/-- A rule goes on with a selector that ends in a comma, and else it is complete. -/
theorem inPlace_rule {selector : Text} {nodes : List (Node E)} (hsiblings : siblings.InPlace lines root)
    (hline : line.written ∈ lines) (halternative : Line.isAlternative line.text = false)
    (hnodes : ∀ node ∈ nodes, node.AllInPlace lines .beneath)
    (hadd : siblings.add root line (.node ⟨.rule [selector], line.site, nodes, []⟩) = .ok added) :
    added.InPlace lines root := by
  obtain ⟨⟨front, hselectors, hfront⟩, start, hstart, hsite, hfirst⟩ :=
    hsiblings.extended hline halternative selector
  rcases Siblings.add_rule rfl hadd with ⟨hends, rfl⟩ | ⟨hgoes, -, rfl⟩
  · have hlast : selector.getLast? ≠ some ',' := by
      intro heq
      simp [OpenRule.goesOn, heq] at hends
    -- the rule ends the run: it takes the selectors and the first line of the run, and none stays
    -- open
    refine ⟨List.forall_mem_cons.mpr ⟨.of_children rfl ?_ hnodes, hsiblings.placed⟩,
      fun _ h => nomatch h⟩
    refine ⟨fun h => (nomatch h), fun h => (nomatch h), ?_, fun h => (nomatch h),
      fun h => absurd h (Node.Place.ofRoot_ne_branch root), fun h => absurd rfl h, ?_⟩
    · intro selectors heq
      cases heq
      exact ⟨front, selector, hselectors, hfront, hlast⟩
    · refine ⟨start, hstart, hsite, ?_⟩
      rw [hfirst]
      simp [Node.Place.ofRoot_ne_branch root]
  · -- the rule joins the run, which stays open on the line it started on
    have hcomma : selector.getLast? = some ',' := by
      simpa [OpenRule.goesOn] using hgoes
    refine ⟨hsiblings.placed, fun rule hrule => ?_⟩
    cases hrule
    refine ⟨?_, start, hstart, hsite, hfirst⟩
    rw [hselectors]
    intro other hother
    rcases List.mem_append.mp hother with hother | hother
    · exact hfront other hother
    · rw [List.mem_singleton.mp hother]
      exact hcomma

/-- Any other node is put behind the others. -/
theorem inPlace_node {c : Construct E} {nodes : List (Node E)}
    (hsiblings : siblings.InPlace lines root) (hc : c.Echoes line) (hrule : c.isRule = false)
    (hline : line.written ∈ lines) (halternative : Line.isAlternative line.text = false)
    (hleaf : c.isLeaf = true → nodes = [])
    (hnodes : ∀ node ∈ nodes, node.AllInPlace lines .beneath)
    (hadd : siblings.add root line (.node ⟨c, line.site, nodes, []⟩) = .ok added) :
    added.InPlace lines root := by
  have hroot := Siblings.rootOnly_of_add hadd
  obtain ⟨hpending, rfl⟩ := Siblings.add_node hrule hadd
  refine ⟨List.forall_mem_cons.mpr ⟨.of_children rfl ?_ hnodes, hsiblings.placed⟩,
    hsiblings.pending⟩
  -- the fields in turn: it is no rule and no branch, so most of them ask for nothing
  refine ⟨fun h => ?_, hleaf, fun selectors heq => ?_, fun heq => ?_,
    fun h => absurd h (Node.Place.ofRoot_ne_branch root), fun h => absurd rfl h, ?_⟩
  · rw [hroot h]
    rfl
  · have heq : c = .rule selectors := heq
    rw [heq] at hrule
    cases hrule
  · have heq : c = .conditional none := heq
    rw [heq] at hc
    cases hc
  · refine ⟨line.written, hline, rfl, ?_⟩
    show Line.isAlternative line.text = true ↔ _
    rw [halternative]
    simp [Node.Place.ofRoot_ne_branch root]

/-- The nodes of an import are put behind the others, at the root. -/
theorem inPlace_imports {nodes : List (Node E)} (hsiblings : siblings.InPlace lines root)
    (hline : line.written ∈ lines) (halternative : Line.isAlternative line.text = false)
    (hnodes : ∀ node ∈ nodes, ∃ c, node = ⟨c, line.site, [], []⟩ ∧ c.isImport = true)
    (hadd : siblings.add root line (.nodes nodes) = .ok added) : added.InPlace lines root := by
  obtain ⟨_, -, hplace⟩ := bind_eq_ok.mp hadd
  have hroot := Siblings.rootOnly_of_placeAll hplace
  obtain ⟨hpending, rfl⟩ := Siblings.add_nodes hadd
  refine ⟨fun node hnode => ?_, hsiblings.pending⟩
  -- the new nodes stand in front, the last one first
  rcases List.mem_append.mp hnode with hnode | hnode
  · have hmem := List.mem_reverse.mp hnode
    obtain ⟨c, rfl, himport⟩ := hnodes node hmem
    refine .of_children rfl ?_ fun child hchild => absurd hchild List.not_mem_nil
    refine ⟨fun h => ?_, fun _ => rfl, fun selectors heq => ?_, fun heq => ?_,
      fun h => absurd h (Node.Place.ofRoot_ne_branch root), fun h => absurd rfl h, ?_⟩
    · rw [hroot _ hmem h]
      rfl
    · have heq : c = .rule selectors := heq
      rw [heq] at himport
      cases himport
    · have heq : c = .conditional none := heq
      rw [heq] at himport
      cases himport
    · refine ⟨line.written, hline, rfl, ?_⟩
      show Line.isAlternative line.text = true ↔ _
      rw [halternative]
      simp [Node.Place.ofRoot_ne_branch root]
  · exact hsiblings.placed node hnode

/-- A branch is put behind those of the newest node. -/
theorem inPlace_branch {test : Option E} {nodes : List (Node E)}
    (hsiblings : siblings.InPlace lines root) (hcond : siblings.afterConditional = true)
    (hline : line.written ∈ lines) (halternative : Line.isAlternative line.text = true)
    (hnodes : ∀ node ∈ nodes, node.AllInPlace lines .beneath)
    (hadd : siblings.add root line (.branch ⟨.conditional test, line.site, nodes, []⟩) = .ok added) :
    added.InPlace lines root := by
  obtain ⟨newest, placed, hplaced, hconditional, hpending, rfl⟩ := Siblings.add_branch hcond hadd
  have hall := hsiblings.placed
  rw [hplaced] at hall
  obtain ⟨hnewest, hplaced⟩ := List.forall_mem_cons.mp hall
  refine ⟨List.forall_mem_cons.mpr ⟨?_, hplaced⟩, hsiblings.pending⟩
  refine hnewest.addBranch hconditional (Node.Place.ofRoot_ne_branch root) ?_
  refine .of_children rfl ?_ hnodes
  refine ⟨fun h => (nomatch h), fun h => (nomatch h), fun _ heq => (nomatch heq), fun _ => rfl,
    fun _ => rfl, fun h => absurd rfl h, ?_⟩
  exact ⟨line.written, hline, rfl, fun _ => rfl, fun _ => halternative⟩

/-- What is left of a line without lines beneath it. -/
theorem nodes_eq_nil {nested : Siblings E} {nodes : List (Node E)} (hchildren : line.children = [])
    (hnested : Yields (forest services directories false {} line.children) state nested next)
    (hfinish : nested.finish = .ok nodes) : nodes = [] := by
  rw [hchildren] at hnested
  rw [forest_nil hnested] at hfinish
  cases hfinish
  rfl

/-- What a line puts into a document is in its place if what it puts beneath is. -/
theorem inPlace_add {reading : Reading} {outcome completed : Outcome E} {middle : σ}
    (hsiblings : siblings.InPlace lines root) (hline : line.written ∈ lines)
    (hread : Reading.ofLine siblings.afterConditional line = .ok reading)
    (hresolve : Yields (reading.resolve services directories line) state outcome middle)
    (hcompletes : Completes services directories line middle outcome completed next)
    (hbeneath : ∀ nested nodes state next,
      Yields (forest services directories false {} line.children) state nested next →
      nested.finish = .ok nodes → ∀ node ∈ nodes, node.AllInPlace lines .beneath)
    (hadd : siblings.add root line completed = .ok added) : added.InPlace lines root := by
  have hechoes := Reading.echoes_of_resolve (Reading.echoes_of_ofLine hread) hresolve
  have hbranch := Reading.isBranch_of_resolve hresolve
  rw [Reading.isBranch_of_ofLine hread] at hbranch
  cases hcompletes with
  | comment hcomment =>
    obtain ⟨c, rfl, hc⟩ := hechoes
    have hrule : c.isRule = false := by
      cases c <;> first | rfl | cases hcomment
    exact inPlace_node hsiblings hc hrule hline hbranch (fun _ => rfl)
      (fun node hnode => absurd hnode List.not_mem_nil) hadd
  | node hcomment hnested hfinish =>
    obtain ⟨c, rfl, hc⟩ := hechoes
    have hnodes := hbeneath _ _ _ _ hnested hfinish
    cases hrule : c.isRule with
    | true =>
      match c, hc, hrule with
      | .rule _, hc, _ =>
        cases hc
        exact inPlace_rule hsiblings hline hbranch hnodes hadd
    | false =>
      refine inPlace_node hsiblings hc hrule hline hbranch (fun hleaf => ?_) hnodes hadd
      -- a leaf has no lines beneath it, and a comment is none of these nodes
      match c, hc, hcomment, hleaf with
      | .binding _ _ _, hc, _, _ | .mixinInclude _ _, hc, _, _ | .debug _, hc, _, _ =>
        exact nodes_eq_nil hc hnested hfinish
  | nodes =>
    obtain ⟨-, -, hnodes⟩ := hechoes
    exact inPlace_imports hsiblings hline hbranch hnodes hadd
  | branch hnested hfinish =>
    obtain ⟨hcond, test, rfl⟩ := hechoes
    exact inPlace_branch hsiblings hcond hline hbranch (hbeneath _ _ _ _ hnested hfinish) hadd

mutual

/-- The invariant survives one more line and those beneath it. -/
theorem inPlace_line : ∀ (line : Line) {root : Bool} {siblings added : Siblings E} {state next : σ},
    Yields (Assembly.line services directories root siblings line) state added next →
    (∀ each ∈ line.preorder, each.written ∈ lines) → siblings.InPlace lines root →
    added.InPlace lines root
  | ⟨text, depth, index, offset, filename, children⟩, _, _, _, _, _, h, hlines, hsiblings => by
    obtain ⟨reading, outcome, completed, middle, hread, hresolve, hcompletes, hadd⟩ := line_steps h
    obtain ⟨hline, hbelow⟩ := List.forall_mem_cons.mp hlines
    have hline : (Line.mk text depth index offset filename children).written ∈ lines := hline
    refine inPlace_add hsiblings hline hread hresolve hcompletes
      (fun nested nodes state next hnested hfinish => ?_) hadd
    obtain ⟨-, rfl⟩ := Siblings.finish_eq_ok.mp hfinish
    have hnested := inPlace_forest children hnested hbelow (Siblings.inPlace_empty lines false)
    intro node hnode
    exact hnested.placed node (List.mem_reverse.mp hnode)

/-- The invariant survives the lines of a forest. -/
theorem inPlace_forest : ∀ (trees : List Line) {root : Bool} {siblings added : Siblings E}
    {state next : σ},
    Yields (forest services directories root siblings trees) state added next →
    (∀ each ∈ Line.forestPreorder trees, each.written ∈ lines) → siblings.InPlace lines root →
    added.InPlace lines root
  | [], _, _, _, _, _, h, _, hsiblings => by
    rw [forest_nil h]
    exact hsiblings
  | first :: rest, _, _, _, _, _, h, hlines, hsiblings => by
    obtain ⟨between, middle, hfirst, hrest⟩ := forest_cons h
    obtain ⟨hhead, htail⟩ := List.forall_mem_append.mp hlines
    exact inPlace_forest rest hrest htail (inPlace_line first hfirst hhead hsiblings)

end

end Assembly

/-! ## Documents -/

namespace Document

variable {services : Services σ E} {overrides : Overrides} {source : Text} {document : Document E}
  {state next : σ}

/-- All parts of a document that is read are in their places. -/
theorem allInPlace_of_parseWith
    (h : Yields (parseWith services overrides source) state document next) :
    ∀ top ∈ document.children,
      top.AllInPlace (WrittenLine.ofSource source overrides.resolve.firstLine overrides.filename)
        .root := by
  obtain ⟨lines, trees, after, siblings, hlines, hnest, hforest, hfinish, -⟩ := steps_of_parseWith h
  obtain ⟨-, hchildren⟩ := Siblings.finish_eq_ok.mp hfinish
  have hwritten := Line.written_of_mem_forestPreorder hlines hnest
  intro top htop
  rw [← hchildren] at htop
  exact (Assembly.inPlace_forest trees hforest hwritten (Siblings.inPlace_empty _ true)).placed top
    (List.mem_reverse.mp htop)

/-- Every node of a document is in its place, at any depth and behind any branches. No branch stands
among the nodes beneath another node as well: the walk comes to all that the document holds, and
every position of the walk has a line, which no other position has unless both are imports, and
which says whether the node there is a branch. -/
theorem inPlace_of_parseWith
    (h : Yields (parseWith services overrides source) state document next) :
    (∀ place node, document.Holds place node →
      node.InPlace (WrittenLine.ofSource source overrides.resolve.firstLine overrides.filename)
        place) ∧
    (∀ place other, (place, other) ∈ Node.forestPlacedWalk .root document.children ↔
      ∃ node, document.Holds place node ∧ node.bare = other) ∧
    ∃ owner, AssignsLines owner (Node.forestPlacedWalk .root document.children)
      (WrittenLine.ofSource source overrides.resolve.firstLine overrides.filename) := by
  refine ⟨?_, fun place other => ?_, (accounts_of_parseWith h).exists_assignsLines⟩
  · rintro place node ⟨top, htop, hholds⟩
    exact allInPlace_of_parseWith h top htop place node hholds
  · rw [Node.mem_forestPlacedWalk_iff]
    constructor
    · rintro ⟨top, htop, node, hholds, hbare⟩
      exact ⟨node, ⟨top, htop, hholds⟩, hbare⟩
    · rintro ⟨node, ⟨top, htop, hholds⟩, hbare⟩
      exact ⟨top, htop, node, hholds, hbare⟩

/-- The theorem for two conditions of which the upper one has a branch, where lines are numbered
from 2 ^ 53 on. The branch and the lower condition say the same at one number, but have lines of
their own. -/
theorem inPlace_of_branched_source :
    ∃ document owner,
      parse ⟨['/'], .empty⟩ { line := some 9007199254740992 }
        "@if $x\n\n\n@else if $y\n@if      $y" = .ok document ∧
      (∀ place node, document.Holds place node →
        node.InPlace
          (WrittenLine.ofSource "@if $x\n\n\n@else if $y\n@if      $y" 9007199254740992 none)
          place) ∧
      AssignsLines owner (Node.forestPlacedWalk .root document.children)
        (WrittenLine.ofSource "@if $x\n\n\n@else if $y\n@if      $y" 9007199254740992 none) ∧
      (Node.forestPlacedWalk .root document.children).map
          (fun entry => (entry.1, entry.2.site.line)) =
        [(.root, 9007199254740992), (.branch, 9007199254740996), (.root, 9007199254740996)] ∧
      owner 1 ≠ owner 2 := by
  have hread : (parse ⟨['/'], .empty⟩ { line := some 9007199254740992 }
      "@if $x\n\n\n@else if $y\n@if      $y").map
      (fun document => (Node.forestPlacedWalk .root document.children).map
        fun entry => (entry.1, entry.2.site.line)) =
      .ok [(.root, 9007199254740992), (.branch, 9007199254740996), (.root, 9007199254740996)] := by
    decide +kernel
  obtain ⟨document, hparse, hwalk⟩ := map_eq_ok.mp hread
  obtain ⟨hall, -, owner, howner⟩ := inPlace_of_parseWith (parse_eq_ok.mp hparse)
  refine ⟨document, owner, hparse, hall, howner, hwalk, fun heq => ?_⟩
  obtain ⟨first, rest, hentries, -, hrest⟩ := List.map_eq_cons_iff.mp hwalk
  obtain ⟨branch, rest, rfl, hbranch, hrest⟩ := List.map_eq_cons_iff.mp hrest
  obtain ⟨lower, rest, rfl, hlower, -⟩ := List.map_eq_cons_iff.mp hrest
  -- on one line they would stand at one place
  rw [hentries] at howner
  obtain ⟨hplace, -⟩ := howner.apart 1 2 branch lower rfl rfl heq
  rw [congrArg Prod.fst hbranch, congrArg Prod.fst hlower] at hplace
  cases hplace

end Document

end Stylesheet
