import Stylesheet.Proofs.Document.Alternatives
import Stylesheet.Proofs.Document.Assembly
import Stylesheet.Proofs.Document.Walks
import Stylesheet.Proofs.Line.Written

/-!
# No line is lost and none is read twice

The walk of a document goes through the lines of its source one after another, once it is cut into
shares.

- `Share`, `Share.Fair`: some nodes of a walk and the lines that they stand for: a rule stands for
  one line per selector, a comment for its first line and its body, all nodes of an import for one
  line, and any other node for a single line.
- `PlacedShare`, `PlacedShare.Settled`: a fair share whose nodes stand at one place, which is that
  of a branch if the first line is that of an alternative, and no such place else.
- `AssignsLines`, `PlacedShare.owner`: the line that each position of a walk belongs to. Only
  imports share a line.
- `Accounts`: placed nodes and lines that are cut into settled shares together.
- `Siblings.Accounts`: the invariant of an assembly, in which the lines of a rule that goes on wait.
- `accounts_line`, `accounts_forest`: the invariant survives one more line, or a forest of lines.
- `Document.walk_of_parseWith`: the shares of a document, their number of lines and their order.
-/

namespace Stylesheet

open Parsing

variable {σ E : Type}

/-! ## Shares -/

namespace Construct

/-- How many lines a construct counts for, if it does so alone. -/
def lineCount : Construct E → Nat
  | .rule selectors => selectors.length
  | .comment _ _ body => 1 + body.length
  | _ => 1

/-- Whether the construct stands for one line, of whose text it need not keep any. -/
def isTextless : Construct E → Bool
  | .attribute _ _ _ | .binding _ _ _ | .mixinDefinition _ _ | .mixinInclude _ _ | .conditional _
  | .whileLoop _ | .forLoop _ _ _ _ | .debug _ => true
  | .rule _ | .comment _ _ _ | .directive _ | .fileImport _ | .cssImport _ => false

theorem lineCount_of_isTextless {c : Construct E} (h : c.isTextless = true) : c.lineCount = 1 := by
  cases c <;> first | rfl | cases h

theorem lineCount_of_isImport {c : Construct E} (h : c.isImport = true) : c.lineCount = 1 := by
  cases c <;> first | rfl | cases h

end Construct

/-- Some nodes that follow each other in a walk, and the lines that they stand for. -/
structure Share (E : Type) where
  nodes : List (Node E)
  lines : List WrittenLine

namespace Share

/-- Whether nodes stand for lines as they should: a rule has one selector from each line, a comment
repeats its first line and those beneath it, a directive repeats its line, the nodes of an import
stand for one line together, and every other node stands for a line. -/
inductive Fair : Share E → Prop where
  | rule {selectors : List Text} {site : Site} {first : WrittenLine} {rest : List WrittenLine}
    (hselectors : selectors = (first :: rest).map fun line => Line.selector line.text)
    (hsite : site = first.site) :
    Fair ⟨[⟨.rule selectors, site, [], []⟩], first :: rest⟩
  | comment (line : WrittenLine) {silent : Bool} {body : List Text} {beneath : List WrittenLine}
    (hbody : body = beneath.map WrittenLine.text) :
    Fair ⟨[⟨.comment line.text silent body, line.site, [], []⟩], line :: beneath⟩
  | directive (line : WrittenLine) :
    Fair ⟨[⟨.directive line.text, line.site, [], []⟩], [line]⟩
  | imports (line : WrittenLine) {nodes : List (Node E)} (hne : nodes ≠ [])
    (hnodes : ∀ node ∈ nodes, ∃ c, node = ⟨c, line.site, [], []⟩ ∧ c.isImport = true) :
    Fair ⟨nodes, [line]⟩
  | single (line : WrittenLine) {c : Construct E} (hc : c.isTextless = true) :
    Fair ⟨[⟨c, line.site, [], []⟩], [line]⟩

/-- The number of lines that the nodes of a share count for. Those of an import count for one. -/
def count (share : Share E) : Nat := (share.nodes.head?.map (·.construct.lineCount)).getD 0

/-- The number of lines that the nodes of all shares count for. -/
def total : List (Share E) → Nat
  | [] => 0
  | share :: shares => share.count + total shares

variable {share : Share E} {shares : List (Share E)}

theorem Fair.ne_nil (h : share.Fair) : share.nodes ≠ [] := by
  cases h with
  | imports _ hne => exact hne
  | rule | comment | directive | single => exact List.cons_ne_nil _ _

theorem Fair.count_eq (h : share.Fair) : share.count = share.lines.length := by
  cases h with
  | rule hselectors =>
    show List.length _ = _
    rw [hselectors, List.length_map]
  | @comment _ _ body beneath hbody =>
    show 1 + body.length = beneath.length + 1
    rw [hbody, List.length_map, Nat.add_comm]
  | directive => rfl
  | imports _ hne hnodes =>
    obtain ⟨node, nodes, rfl⟩ := List.exists_cons_of_ne_nil hne
    obtain ⟨c, rfl, hc⟩ := hnodes node List.mem_cons_self
    exact Construct.lineCount_of_isImport hc
  | single _ hc => exact Construct.lineCount_of_isTextless hc

/-- All nodes of a share stand where its first line does. -/
theorem Fair.site_eq (h : share.Fair) :
    ∃ line rest, share.lines = line :: rest ∧ ∀ node ∈ share.nodes, node.site = line.site := by
  cases h with
  | rule _ hsite =>
    refine ⟨_, _, rfl, fun node hnode => ?_⟩
    rw [List.mem_singleton.mp hnode]
    exact hsite
  | comment | directive | single =>
    refine ⟨_, _, rfl, fun node hnode => ?_⟩
    rw [List.mem_singleton.mp hnode]
  | imports _ _ hnodes =>
    refine ⟨_, _, rfl, fun node hnode => ?_⟩
    obtain ⟨c, rfl, -⟩ := hnodes node hnode
    rfl

theorem Fair.exists_line {node : Node E} (h : share.Fair) (hnode : node ∈ share.nodes) :
    ∃ line ∈ share.lines, node.site = line.site := by
  obtain ⟨line, rest, hlines, hsites⟩ := h.site_eq
  rw [hlines]
  exact ⟨line, List.mem_cons_self, hsites node hnode⟩

/-- Several nodes stand for one line only in an import. -/
theorem Fair.length_eq_one_or_imports (h : share.Fair) :
    share.nodes.length = 1 ∨ ∀ node ∈ share.nodes, node.construct.isImport = true := by
  cases h with
  | rule | comment | directive | single => exact .inl rfl
  | imports _ _ hnodes =>
    refine .inr fun node hnode => ?_
    obtain ⟨c, rfl, himport⟩ := hnodes node hnode
    exact himport

/-- Fair shares count for the lines that they hold. -/
theorem total_eq (h : ∀ share ∈ shares, share.Fair) :
    total shares = (shares.flatMap lines).length := by
  induction shares with
  | nil => rfl
  | cons share shares ih =>
    obtain ⟨hshare, hrest⟩ := List.forall_mem_cons.mp h
    rw [total, ih hrest, hshare.count_eq, List.flatMap_cons, List.length_append]

end Share

/-! ## Shares at places -/

/-- A share whose nodes stand at one place. -/
structure PlacedShare (E : Type) where
  place : Node.Place
  share : Share E

namespace PlacedShare

/-- The nodes of the share, each with the place where it stands. -/
def nodes (placed : PlacedShare E) : List (Node.Place × Node E) :=
  placed.share.nodes.map (Prod.mk placed.place)

/-- The lines that the nodes of the share stand for. -/
def lines (placed : PlacedShare E) : List WrittenLine := placed.share.lines

/-- The share is fair, and its nodes are branches just if its first line is that of an alternative.
The lines beneath a comment may look like anything. -/
structure Settled (placed : PlacedShare E) : Prop where
  fair : placed.share.Fair
  alternative : ∀ line rest, placed.lines = line :: rest →
    (Line.isAlternative line.text = true ↔ placed.place = .branch)

variable {placed : PlacedShare E} {shares : List (PlacedShare E)}

theorem Settled.ne_nil (h : placed.Settled) : placed.nodes ≠ [] := by
  unfold nodes
  rw [Ne, List.map_eq_nil_iff]
  exact h.fair.ne_nil

/-- The line that all nodes of a settled share start on. -/
theorem Settled.exists_line (h : placed.Settled) :
    ∃ line rest, placed.lines = line :: rest ∧ (∀ node ∈ placed.share.nodes, node.site = line.site) ∧
      (Line.isAlternative line.text = true ↔ placed.place = .branch) := by
  obtain ⟨line, rest, hlines, hsites⟩ := h.fair.site_eq
  exact ⟨line, rest, hlines, hsites, h.alternative line rest hlines⟩

/-- Without their places the shares hold the same nodes. -/
theorem flatMap_share_nodes (shares : List (PlacedShare E)) :
    (shares.map share).flatMap Share.nodes = (shares.flatMap nodes).map Prod.snd := by
  induction shares with
  | nil => rfl
  | cons placed shares ih =>
    have hnodes : placed.nodes.map Prod.snd = placed.share.nodes := by
      unfold nodes
      rw [List.map_map]
      exact List.map_id _
    rw [List.map_cons, List.flatMap_cons, List.flatMap_cons, List.map_append, ih, hnodes]

theorem mem_nodes {place : Node.Place} {node : Node E} :
    (place, node) ∈ placed.nodes ↔ placed.place = place ∧ node ∈ placed.share.nodes := by
  unfold nodes
  rw [List.mem_map]
  constructor
  · rintro ⟨_, hnode, heq⟩
    cases heq
    exact ⟨rfl, hnode⟩
  · rintro ⟨rfl, hnode⟩
    exact ⟨node, hnode, rfl⟩

end PlacedShare

/-! ## The line of a position -/

/-- A function gives each position of a walk one of the lines: the line that the node there starts
on, and the node is a branch just if that line is the line of an alternative. Two positions have one
line only among the imports of that line, so that no node stands at two positions. -/
structure AssignsLines (owner : Nat → Nat) (entries : List (Node.Place × Node E))
    (lines : List WrittenLine) : Prop where
  line : ∀ i place node, entries[i]? = some (place, node) →
    ∃ line, lines[owner i]? = some line ∧ node.site = line.site ∧
      (Line.isAlternative line.text = true ↔ place = .branch)
  apart : ∀ i j upper lower, entries[i]? = some upper → entries[j]? = some lower →
    owner i = owner j → upper.1 = lower.1 ∧
      (i = j ∨ upper.2.construct.isImport = true ∧ lower.2.construct.isImport = true)

namespace PlacedShare

variable {placed : PlacedShare E} {shares : List (PlacedShare E)}

/-- Which of the lines of some shares a position of their walk belongs to: the first line of the
share that the position falls into. -/
def owner : List (PlacedShare E) → Nat → Nat
  | [], _ => 0
  | placed :: shares, i =>
    if i < placed.nodes.length then 0
    else placed.lines.length + owner shares (i - placed.nodes.length)

theorem owner_of_lt {i : Nat} (h : i < placed.nodes.length) : owner (placed :: shares) i = 0 :=
  if_pos h

theorem owner_of_le {i : Nat} (h : placed.nodes.length ≤ i) :
    owner (placed :: shares) i = placed.lines.length + owner shares (i - placed.nodes.length) :=
  if_neg (Nat.not_lt.mpr h)

/-- The node at a position starts on the line that the position belongs to. -/
theorem exists_line_of_owner (h : ∀ placed ∈ shares, placed.Settled) {i : Nat} {place : Node.Place}
    {node : Node E} (hi : (shares.flatMap nodes)[i]? = some (place, node)) :
    ∃ line, (shares.flatMap lines)[owner shares i]? = some line ∧ node.site = line.site ∧
      (Line.isAlternative line.text = true ↔ place = .branch) := by
  induction shares generalizing i with
  | nil => cases hi
  | cons placed shares ih =>
    obtain ⟨hplaced, hshares⟩ := List.forall_mem_cons.mp h
    rw [List.flatMap_cons] at hi ⊢
    by_cases hlt : i < placed.nodes.length
    · -- the position falls into this share, whose nodes start on its first line
      rw [List.getElem?_append_left hlt] at hi
      obtain ⟨rfl, hnode⟩ := mem_nodes.mp (List.mem_of_getElem? hi)
      obtain ⟨line, rest, hlines, hsites, hplace⟩ := hplaced.exists_line
      refine ⟨line, ?_, hsites node hnode, hplace⟩
      rw [owner_of_lt hlt, hlines]
      rfl
    · have hle := Nat.not_lt.mp hlt
      rw [List.getElem?_append_right hle] at hi
      obtain ⟨line, hline, hsite⟩ := ih hshares hi
      refine ⟨line, ?_, hsite⟩
      rw [owner_of_le hle, List.getElem?_append_right (Nat.le_add_right _ _),
        Nat.add_sub_cancel_left, hline]

/-- Two positions of one share are one position, or both are imports. -/
theorem Settled.eq_or_imports (h : placed.Settled) {i j : Nat} {upper lower : Node.Place × Node E}
    (hi : placed.nodes[i]? = some upper) (hj : placed.nodes[j]? = some lower) :
    upper.1 = lower.1 ∧
      (i = j ∨ upper.2.construct.isImport = true ∧ lower.2.construct.isImport = true) := by
  obtain ⟨hplace, hupper⟩ := mem_nodes.mp (List.mem_of_getElem? hi)
  obtain ⟨hplace', hlower⟩ := mem_nodes.mp (List.mem_of_getElem? hj)
  refine ⟨hplace.symm.trans hplace', ?_⟩
  rcases h.fair.length_eq_one_or_imports with hone | himports
  · have hlength : placed.nodes.length = 1 := (List.length_map _).trans hone
    obtain ⟨hi, -⟩ := List.getElem?_eq_some_iff.mp hi
    obtain ⟨hj, -⟩ := List.getElem?_eq_some_iff.mp hj
    exact .inl (by omega)
  · exact .inr ⟨himports _ hupper, himports _ hlower⟩

/-- Positions with one line fall into one share. -/
theorem eq_or_imports_of_owner_eq (h : ∀ placed ∈ shares, placed.Settled) {i j : Nat}
    {upper lower : Node.Place × Node E} (hi : (shares.flatMap nodes)[i]? = some upper)
    (hj : (shares.flatMap nodes)[j]? = some lower) (howner : owner shares i = owner shares j) :
    upper.1 = lower.1 ∧
      (i = j ∨ upper.2.construct.isImport = true ∧ lower.2.construct.isImport = true) := by
  induction shares generalizing i j with
  | nil => cases hi
  | cons placed shares ih =>
    obtain ⟨hplaced, hshares⟩ := List.forall_mem_cons.mp h
    have hpos : 0 < placed.lines.length := by
      obtain ⟨line, rest, hlines, -⟩ := hplaced.exists_line
      rw [hlines]
      exact Nat.zero_lt_succ _
    rw [List.flatMap_cons] at hi hj
    by_cases hlt : i < placed.nodes.length <;> by_cases hlt' : j < placed.nodes.length
    · rw [List.getElem?_append_left hlt] at hi
      rw [List.getElem?_append_left hlt'] at hj
      exact hplaced.eq_or_imports hi hj
    · -- one of them belongs to the first line of this share, the other one to no line of it
      rw [owner_of_lt hlt, owner_of_le (Nat.not_lt.mp hlt')] at howner
      omega
    · rw [owner_of_le (Nat.not_lt.mp hlt), owner_of_lt hlt'] at howner
      omega
    · have hle := Nat.not_lt.mp hlt
      have hle' := Nat.not_lt.mp hlt'
      rw [List.getElem?_append_right hle] at hi
      rw [List.getElem?_append_right hle'] at hj
      rw [owner_of_le hle, owner_of_le hle', Nat.add_left_cancel_iff] at howner
      obtain ⟨hplace, heq⟩ := ih hshares hi hj howner
      exact ⟨hplace, heq.imp_left fun heq => by omega⟩

end PlacedShare

/-! ## Accounts -/

/-- Placed nodes and lines that are cut into settled shares together. -/
def Accounts (nodes : List (Node.Place × Node E)) (lines : List WrittenLine) : Prop :=
  ∃ shares : List (PlacedShare E), (∀ placed ∈ shares, placed.Settled) ∧
    shares.flatMap PlacedShare.nodes = nodes ∧ shares.flatMap PlacedShare.lines = lines

namespace Accounts

variable {place : Node.Place} {nodes others : List (Node.Place × Node E)}
  {lines below : List WrittenLine}

theorem nil : Accounts ([] : List (Node.Place × Node E)) [] :=
  ⟨[], fun _ h => absurd h List.not_mem_nil, rfl, rfl⟩

/-- A single share, with its first line in view. -/
theorem of_fair {nodes : List (Node E)} {line : WrittenLine} {rest : List WrittenLine}
    (h : Share.Fair ⟨nodes, line :: rest⟩)
    (hplace : Line.isAlternative line.text = true ↔ place = .branch) :
    Accounts (nodes.map (Prod.mk place)) (line :: rest) := by
  refine ⟨[⟨place, nodes, line :: rest⟩], fun placed hplaced => ?_, List.append_nil _,
    List.append_nil _⟩
  rw [List.mem_singleton.mp hplaced]
  refine ⟨h, fun first others hlines => ?_⟩
  cases hlines
  exact hplace

theorem append (hfront : Accounts nodes lines) (hback : Accounts others below) :
    Accounts (nodes ++ others) (lines ++ below) := by
  obtain ⟨front, hfair, rfl, rfl⟩ := hfront
  obtain ⟨back, hfair', rfl, rfl⟩ := hback
  refine ⟨front ++ back, fun placed hplaced => ?_, List.flatMap_append, List.flatMap_append⟩
  rcases List.mem_append.mp hplaced with hplaced | hplaced
  · exact hfair placed hplaced
  · exact hfair' placed hplaced

/-- A node that stands for one line, and those beneath it. -/
theorem cons {node : Node E} {line : WrittenLine} (hnode : Share.Fair ⟨[node], [line]⟩)
    (hplace : Line.isAlternative line.text = true ↔ place = .branch)
    (hbelow : Accounts others below) : Accounts ((place, node) :: others) (line :: below) :=
  (of_fair hnode hplace).append hbelow

/-- Where lines are accounted for, every position has its line. -/
theorem exists_assignsLines (h : Accounts nodes lines) : ∃ owner, AssignsLines owner nodes lines := by
  obtain ⟨shares, hsettled, rfl, rfl⟩ := h
  refine ⟨PlacedShare.owner shares, fun i place node hi => ?_, fun i j upper lower hi hj => ?_⟩
  · exact PlacedShare.exists_line_of_owner hsettled hi
  · exact PlacedShare.eq_or_imports_of_owner_eq hsettled hi hj

/-- Without nodes no line is accounted for. -/
theorem eq_nil (h : Accounts ([] : List (Node.Place × Node E)) lines) : lines = [] := by
  obtain ⟨shares, hsettled, hnodes, rfl⟩ := h
  cases shares with
  | nil => rfl
  | cons placed shares =>
    -- a share has a node, so that there is none
    rw [List.flatMap_cons, List.append_eq_nil_iff] at hnodes
    exact absurd hnodes.1 (hsettled placed List.mem_cons_self).ne_nil

end Accounts

/-! ## The invariant of an assembly -/

/-- The lines that wait for the end of a rule which goes on. The first of them is no alternative. -/
def OpenRule.Waits : Option OpenRule → List WrittenLine → Prop
  | none, lines => lines = []
  | some rule, lines => ∃ first rest, lines = first :: rest ∧ rule.site = first.site ∧
    rule.selectors = lines.map (fun line => Line.selector line.text) ∧
    Line.isAlternative first.text = false

namespace Siblings

/-- The nodes put next to each other so far account for the lines read so far, but for those of the
rule that goes on. -/
def Accounts (root : Bool) (siblings : Siblings E) (lines : List WrittenLine) : Prop :=
  ∃ settled waiting, lines = settled ++ waiting ∧
    Stylesheet.Accounts (Node.forestPlacedWalk (.ofRoot root) siblings.placed.reverse) settled ∧
    OpenRule.Waits siblings.pending waiting

variable {root : Bool} {siblings : Siblings E} {lines waiting below : List WrittenLine}

theorem accounts_empty (root : Bool) : Accounts root ({} : Siblings E) [] :=
  ⟨[], [], rfl, .nil, rfl⟩

/-- Where no rule goes on, the nodes account for all lines. -/
theorem Accounts.of_pending (h : siblings.Accounts root lines) (hpending : siblings.pending = none) :
    Stylesheet.Accounts (Node.forestPlacedWalk (.ofRoot root) siblings.placed.reverse) lines := by
  obtain ⟨settled, waiting, rfl, haccounts, hwaits⟩ := h
  rw [hpending] at hwaits
  cases hwaits
  rw [List.append_nil]
  exact haccounts

/-- More nodes behind the others account for more lines. -/
theorem accounts_placed (nodes : List (Node E)) {lines : List WrittenLine}
    (h : Stylesheet.Accounts (Node.forestPlacedWalk (.ofRoot root) siblings.placed.reverse) lines)
    (hnodes : Stylesheet.Accounts (Node.forestPlacedWalk (.ofRoot root) nodes) below) :
    Accounts root ⟨nodes.reverse ++ siblings.placed, none⟩ (lines ++ below) := by
  refine ⟨lines ++ below, [], (List.append_nil _).symm, ?_, rfl⟩
  -- the newest node is at the head of the list, and last in the walk
  rw [List.reverse_append, List.reverse_reverse, Node.forestPlacedWalk_append]
  exact h.append hnodes

/-- One more line waits where a rule goes on. -/
theorem waits_extended (h : OpenRule.Waits siblings.pending waiting) (line : WrittenLine)
    (halternative : Line.isAlternative line.text = false) :
    OpenRule.Waits (some (siblings.extended [Line.selector line.text] line.site))
      (waiting ++ [line]) := by
  unfold extended
  cases hpending : siblings.pending with
  | none =>
    rw [hpending] at h
    cases h
    exact ⟨line, [], rfl, rfl, rfl, halternative⟩
  | some rule =>
    rw [hpending] at h
    obtain ⟨first, rest, rfl, hsite, hselectors, hfirst⟩ := h
    refine ⟨first, rest ++ [line], rfl, hsite, ?_, hfirst⟩
    rw [List.map_append, ← hselectors]
    rfl

/-- The rule that ends accounts for the lines that have waited. -/
theorem accounts_of_waits {rule : OpenRule} (root : Bool)
    (h : OpenRule.Waits (some rule) waiting) :
    Stylesheet.Accounts (E := E)
      [(.ofRoot root, ⟨.rule rule.selectors, rule.site, [], []⟩)] waiting := by
  obtain ⟨first, rest, rfl, hsite, hselectors, hfirst⟩ := h
  refine Stylesheet.Accounts.of_fair (.rule hselectors hsite) ?_
  simp [hfirst, Node.Place.ofRoot_ne_branch root]

end Siblings

/-! ## Assembling lines -/

namespace Assembly

variable {services : Services σ E} {directories : List Text} {root : Bool}
  {siblings added : Siblings E} {state next : σ} {line : Line} {lines below : List WrittenLine}

/-- A rule waits with its line, or ends and accounts for all lines that have waited. -/
theorem accounts_rule {nodes : List (Node E)} (hlines : siblings.Accounts root lines)
    (halternative : Line.isAlternative line.text = false)
    (hnodes : Accounts (Node.forestPlacedWalk .beneath nodes) below)
    (hadd : siblings.add root line (.node ⟨.rule [Line.selector line.text], line.site, nodes, []⟩) =
      .ok added) :
    added.Accounts root (lines ++ line.written :: below) := by
  obtain ⟨settled, waiting, rfl, hsettled, hwaits⟩ := hlines
  have hextended := Siblings.waits_extended hwaits line.written halternative
  have hsplit : settled ++ waiting ++ line.written :: below =
      settled ++ ((waiting ++ [line.written]) ++ below) := by simp
  rw [hsplit]
  rcases Siblings.add_rule rfl hadd with ⟨-, rfl⟩ | ⟨-, hempty, rfl⟩
  · -- the rule ends here: its node stands for all lines that have waited, and for this one
    refine Siblings.accounts_placed [_] hsettled ?_
    rw [Node.forestPlacedWalk_singleton, Node.placedWalk_eq, Node.forestPlacedWalk, List.append_nil]
    exact (Siblings.accounts_of_waits root hextended).append hnodes
  · -- the rule goes on, so that it has nothing beneath it, and its line waits as well
    cases hempty
    rw [hnodes.eq_nil, List.append_nil]
    exact ⟨settled, waiting ++ [line.written], rfl, hsettled, hextended⟩

/-- Any other node is accounted for at once. -/
theorem accounts_node {node : Node E} (hlines : siblings.Accounts root lines)
    (hrule : node.construct.isRule = false) (hnode : Accounts (node.placedWalk (.ofRoot root)) below)
    (hadd : siblings.add root line (.node node) = .ok added) :
    added.Accounts root (lines ++ below) := by
  obtain ⟨hpending, rfl⟩ := Siblings.add_node hrule hadd
  rw [hpending]
  refine Siblings.accounts_placed [node] (hlines.of_pending hpending) ?_
  rw [Node.forestPlacedWalk_singleton]
  exact hnode

/-- A node with those beneath it, which is neither a rule nor a comment. -/
theorem accounts_walk {place : Node.Place} {c : Construct E} {nodes : List (Node E)}
    (hc : c.Echoes line) (hrule : c.isRule = false) (hcomment : c.isComment = false)
    (hplace : Line.isAlternative line.text = true ↔ place = .branch)
    (hnodes : Accounts (Node.forestPlacedWalk .beneath nodes) below) :
    Accounts (Node.placedWalk place ⟨c, line.site, nodes, []⟩) (line.written :: below) := by
  rw [Node.placedWalk_eq, Node.forestPlacedWalk, List.append_nil]
  refine .cons ?_ hplace hnodes
  match c, hc, hrule, hcomment with
  | .directive _, hc, _, _ =>
    cases hc
    exact .directive line.written
  | .fileImport _, hc, _, _ | .cssImport _, hc, _, _ => cases hc
  | .attribute _ _ _, _, _, _ | .binding _ _ _, _, _, _ | .mixinDefinition _ _, _, _, _
  | .mixinInclude _ _, _, _, _ | .conditional _, _, _, _ | .whileLoop _, _, _, _
  | .forLoop _ _ _ _, _, _, _ | .debug _, _, _, _ => exact .single line.written rfl

/-- A branch with those beneath it comes behind all that has been walked through. -/
theorem accounts_branch {test : Option E} {nodes : List (Node E)}
    (hlines : siblings.Accounts root lines) (hcond : siblings.afterConditional = true)
    (halternative : Line.isAlternative line.text = true)
    (hnodes : Accounts (Node.forestPlacedWalk .beneath nodes) below)
    (hadd : siblings.add root line (.branch ⟨.conditional test, line.site, nodes, []⟩) = .ok added) :
    added.Accounts root (lines ++ line.written :: below) := by
  obtain ⟨node, placed, hplaced, -, hpending, rfl⟩ := Siblings.add_branch hcond hadd
  have hlines := hlines.of_pending hpending
  rw [hplaced, List.reverse_cons, Node.forestPlacedWalk_append, Node.forestPlacedWalk_singleton]
    at hlines
  refine ⟨_, [], (List.append_nil _).symm, ?_, by rw [hpending]; rfl⟩
  show Accounts (Node.forestPlacedWalk _ (node.addBranch _ :: placed).reverse) _
  -- the walk ends with the newest node, so its branch comes behind all others
  rw [List.reverse_cons, Node.forestPlacedWalk_append, Node.forestPlacedWalk_singleton,
    Node.placedWalk_addBranch, ← List.append_assoc, Node.placedWalk_eq .branch ⟨_, _, _, _⟩,
    Node.forestPlacedWalk, List.append_nil]
  refine hlines.append (.cons (.single line.written rfl) ?_ hnodes)
  exact ⟨fun _ => rfl, fun _ => halternative⟩

/-- What a line puts into a document accounts for it and the lines beneath it. -/
theorem accounts_add {outcome completed : Outcome E} (hlines : siblings.Accounts root lines)
    (hechoes : outcome.Echoes siblings.afterConditional line)
    (hbranch : outcome.isBranch = Line.isAlternative line.text)
    (hcompletes : Completes services directories line state outcome completed next)
    (hbeneath : ∀ nested nodes state next,
      Yields (forest services directories false {} line.children) state nested next →
      nested.finish = .ok nodes →
      Accounts (Node.forestPlacedWalk .beneath nodes)
        ((Line.forestPreorder line.children).map Line.written))
    (hadd : siblings.add root line completed = .ok added) :
    added.Accounts root (lines ++ line.preorder.map Line.written) := by
  rw [Line.preorder_eq, List.map_cons]
  show added.Accounts root
    (lines ++ line.written :: (Line.forestPreorder line.children).map Line.written)
  -- among siblings there are no branches, and none of the lines of theirs is an alternative
  have hplace : Line.isAlternative line.text = false →
      (Line.isAlternative line.text = true ↔ Node.Place.ofRoot root = .branch) := by
    intro halternative
    simp [halternative, Node.Place.ofRoot_ne_branch root]
  cases hcompletes with
  | comment hcomment =>
    obtain ⟨c, rfl, hc⟩ := hechoes
    match c, hc, hcomment with
    | .comment _ silent body, ⟨htext, hbody⟩, _ =>
      -- the lines beneath a comment are not read: it keeps their texts
      cases htext
      have hfair : Share.Fair (E := E) ⟨[⟨.comment line.text silent body, line.site, [], []⟩],
          line.written :: (Line.forestPreorder line.children).map Line.written⟩ := by
        refine .comment line.written ?_
        rw [hbody, ← Line.map_text_forestPreorder, List.map_map]
        rfl
      refine accounts_node hlines rfl ?_ hadd
      exact Accounts.of_fair hfair (hplace hbranch.symm)
  | node hcomment hnested hfinish =>
    obtain ⟨c, rfl, hc⟩ := hechoes
    have hnodes := hbeneath _ _ _ _ hnested hfinish
    cases hrule : c.isRule with
    | true =>
      match c, hc, hrule with
      | .rule _, hc, _ =>
        cases hc
        exact accounts_rule hlines hbranch.symm hnodes hadd
    | false =>
      exact accounts_node hlines hrule
        (accounts_walk hc hrule hcomment (hplace hbranch.symm) hnodes) hadd
  | @nodes nodes =>
    obtain ⟨hchildren, hne, hnodes⟩ := hechoes
    obtain ⟨hpending, rfl⟩ := Siblings.add_nodes hadd
    rw [hchildren, hpending]
    refine Siblings.accounts_placed nodes (hlines.of_pending hpending) ?_
    rw [Node.forestPlacedWalk_of_bare _ fun node hnode => ?_]
    · exact .of_fair (.imports line.written hne hnodes) (hplace hbranch.symm)
    · obtain ⟨c, rfl, -⟩ := hnodes node hnode
      rfl
  | branch hnested hfinish =>
    obtain ⟨hcond, test, rfl⟩ := hechoes
    exact accounts_branch hlines hcond hbranch.symm (hbeneath _ _ _ _ hnested hfinish) hadd

mutual

/-- The invariant survives one more line and those beneath it. -/
theorem accounts_line : ∀ (line : Line) {root : Bool} {siblings added : Siblings E} {state next : σ}
    {lines : List WrittenLine},
    Yields (Assembly.line services directories root siblings line) state added next →
    siblings.Accounts root lines → added.Accounts root (lines ++ line.preorder.map Line.written)
  | ⟨text, depth, index, offset, filename, children⟩, _, _, _, _, _, _, h, hlines => by
    obtain ⟨reading, outcome, completed, middle, hread, hresolve, hcompletes, hadd⟩ := line_steps h
    have hechoes := Reading.echoes_of_resolve (Reading.echoes_of_ofLine hread) hresolve
    have hbranch := (Reading.isBranch_of_resolve hresolve).symm.trans
      (Reading.isBranch_of_ofLine hread)
    refine accounts_add hlines hechoes hbranch hcompletes
      (fun nested nodes state next hnested hfinish => ?_) hadd
    -- no rule goes on at the end of the lines beneath, so their nodes account for all of them
    obtain ⟨hpending, rfl⟩ := Siblings.finish_eq_ok.mp hfinish
    exact (accounts_forest children hnested (Siblings.accounts_empty false)).of_pending hpending

/-- The invariant survives the lines of a forest. -/
theorem accounts_forest : ∀ (trees : List Line) {root : Bool} {siblings added : Siblings E}
    {state next : σ} {lines : List WrittenLine},
    Yields (forest services directories root siblings trees) state added next →
    siblings.Accounts root lines →
    added.Accounts root (lines ++ (Line.forestPreorder trees).map Line.written)
  | [], _, _, _, _, _, _, h, hlines => by
    rw [forest_nil h, Line.forestPreorder, List.map_nil, List.append_nil]
    exact hlines
  | first :: rest, _, _, _, _, _, _, h, hlines => by
    obtain ⟨between, middle, hfirst, hrest⟩ := forest_cons h
    rw [Line.forestPreorder, List.map_append, ← List.append_assoc]
    exact accounts_forest rest hrest (accounts_line first hfirst hlines)

end

end Assembly

/-! ## Documents -/

namespace Document

variable {services : Services σ E} {overrides : Overrides} {source : Text} {document : Document E}
  {state next : σ}

/-- The walk of a document, with the places of its nodes, accounts for the lines of its source. -/
theorem accounts_of_parseWith (h : Yields (parseWith services overrides source) state document next) :
    Accounts (Node.forestPlacedWalk .root document.children)
      (WrittenLine.ofSource source overrides.resolve.firstLine overrides.filename) := by
  obtain ⟨lines, trees, after, siblings, hlines, hnest, hforest, hfinish, -⟩ := steps_of_parseWith h
  obtain ⟨hpending, hchildren⟩ := Siblings.finish_eq_ok.mp hfinish
  have hall := Assembly.accounts_forest trees hforest (Siblings.accounts_empty true)
  rw [Line.forestPreorder_of_nest hlines hnest, Line.map_written_ofSource hlines] at hall
  rw [← hchildren]
  exact hall.of_pending hpending

/-- Without its places, the walk is cut into fair shares. -/
theorem shares_of_parseWith (h : Yields (parseWith services overrides source) state document next) :
    ∃ shares : List (Share E), (∀ share ∈ shares, share.Fair) ∧
      shares.flatMap Share.nodes = Node.forestWalk document.children ∧
      shares.flatMap Share.lines =
        WrittenLine.ofSource source overrides.resolve.firstLine overrides.filename := by
  obtain ⟨shares, hsettled, hnodes, hlines⟩ := accounts_of_parseWith h
  refine ⟨shares.map PlacedShare.share, List.forall_mem_map.mpr fun placed hplaced => ?_, ?_, ?_⟩
  · exact (hsettled placed hplaced).fair
  · rw [PlacedShare.flatMap_share_nodes, hnodes, Node.map_snd_forestPlacedWalk]
  · rw [List.flatMap_map]
    exact hlines

/-- Every node of a document stands where a line of its source does. -/
theorem exists_line_of_parseWith
    (h : Yields (parseWith services overrides source) state document next) {node : Node E}
    (hnode : node ∈ Node.forestWalk document.children) :
    ∃ line ∈ WrittenLine.ofSource source overrides.resolve.firstLine overrides.filename,
      node.site = line.site := by
  obtain ⟨shares, hfair, hnodes, hlines⟩ := shares_of_parseWith h
  rw [← hnodes] at hnode
  obtain ⟨share, hshare, hnode⟩ := List.mem_flatMap.mp hnode
  obtain ⟨line, hline, hsite⟩ := (hfair share hshare).exists_line hnode
  refine ⟨line, ?_, hsite⟩
  rw [← hlines]
  exact List.mem_flatMap_of_mem hshare hline

/-- A document that is read keeps the lines of its source: its walk, cut into fair shares, goes
through them one after another and counts for each of them once. The numbers of the lines rise from
share to share and are the same within a share. -/
theorem walk_of_parseWith (h : Yields (parseWith services overrides source) state document next) :
    ∃ shares : List (Share E), (∀ share ∈ shares, share.Fair) ∧
      shares.flatMap Share.nodes = Node.forestWalk document.children ∧
      shares.flatMap Share.lines =
        WrittenLine.ofSource source overrides.resolve.firstLine overrides.filename ∧
      Share.total shares = (PhysicalLine.ofSource source).countP (fun raw => !raw.isBlank) ∧
      shares.Pairwise (fun upper lower => ∀ node ∈ upper.nodes, ∀ other ∈ lower.nodes,
        node.site.Precedes other.site) ∧
      (∀ share ∈ shares, ∀ node ∈ share.nodes, ∀ other ∈ share.nodes, node.site = other.site) ∧
      ∀ node ∈ Node.forestWalk document.children, node.site.filename = overrides.filename ∧
        ∃ line ∈ WrittenLine.ofSource source overrides.resolve.firstLine overrides.filename,
          node.site = line.site := by
  obtain ⟨shares, hfair, hnodes, hlines⟩ := shares_of_parseWith h
  refine ⟨shares, hfair, hnodes, hlines, ?_, ?_, ?_, ?_⟩
  · rw [Share.total_eq hfair, hlines, WrittenLine.length_ofSource]
  · -- the lines are in order, and every node stands on a line of its share
    have hordered := WrittenLine.pairwise_ofSource source overrides.resolve.firstLine
      overrides.filename
    rw [← hlines, List.pairwise_flatMap] at hordered
    refine hordered.2.imp_of_mem fun {upper lower} hupper hlower hprecedes => ?_
    intro node hnode other hother
    obtain ⟨line, hline, hsite⟩ := (hfair upper hupper).exists_line hnode
    obtain ⟨below, hbelow, hsite'⟩ := (hfair lower hlower).exists_line hother
    rw [hsite, hsite']
    exact hprecedes line hline below hbelow
  · intro share hshare node hnode other hother
    obtain ⟨line, rest, -, hsites⟩ := (hfair share hshare).site_eq
    rw [hsites node hnode, hsites other hother]
  · intro node hnode
    obtain ⟨line, hline, hsite⟩ := exists_line_of_parseWith h hnode
    rw [hsite]
    exact ⟨WrittenLine.filename_of_mem_ofSource hline, line, hline, rfl⟩

/-- The theorem for a rule over two lines with an attribute, a comment over two lines, a condition
with a branch, and an import of two style sheets. -/
theorem walk_of_mixed_source :
    ∃ document,
      parse ⟨['/'], .empty⟩ { filename := some "a.terrace" }
        "a,\nb\n  color: red\n\n// c\n  d\n@if $x\n  e\n@else\n  f\n@import g.css, h.css\n" =
        .ok document ∧
      ∃ shares : List (Share Expression), (∀ share ∈ shares, share.Fair) ∧
        shares.flatMap Share.nodes = Node.forestWalk document.children ∧
        Share.total shares = 10 ∧
        (shares.flatMap Share.lines).map (fun line => (line.text, line.site.line)) =
          ([("a,", 1), ("b", 2), ("color: red", 3), ("// c", 5), ("d", 6), ("@if $x", 7), ("e", 8),
            ("@else", 9), ("f", 10), ("@import g.css, h.css", 11)] : List (Text × Int)) := by
  have hread : (parse ⟨['/'], .empty⟩ { filename := some "a.terrace" }
      "a,\nb\n  color: red\n\n// c\n  d\n@if $x\n  e\n@else\n  f\n@import g.css, h.css\n").isOk =
      true := by
    decide +kernel
  obtain ⟨document, hparse⟩ := exists_eq_ok.mp hread
  obtain ⟨shares, hfair, hnodes, hlines, htotal, -⟩ := walk_of_parseWith (parse_eq_ok.mp hparse)
  refine ⟨document, hparse, shares, hfair, hnodes, ?_, ?_⟩
  · rw [htotal]
    decide +kernel
  · rw [hlines]
    decide +kernel

/-- The numbers of two rules are the same where their lines are numbered from 2 ^ 53 on. -/
theorem line_eq_of_rounded :
    ∃ document,
      parse ⟨['/'], .empty⟩ { line := some 9007199254740992 } "a\nb" = .ok document ∧
      (Node.forestWalk document.children).map (fun node => (node.construct, node.site.line)) =
        [(.rule ["a"], 9007199254740992), (.rule ["b"], 9007199254740992)] ∧
      ¬(Node.forestWalk document.children).Pairwise fun upper lower =>
        upper.site.line < lower.site.line := by
  have hwalk : (parse ⟨['/'], .empty⟩ { line := some 9007199254740992 } "a\nb").map
      (fun document => (Node.forestWalk document.children).map
        fun node => (node.construct, node.site.line)) =
      .ok [(.rule ["a"], 9007199254740992), (.rule ["b"], 9007199254740992)] := by
    decide +kernel
  obtain ⟨document, hparse, hwalk⟩ := map_eq_ok.mp hwalk
  refine ⟨document, hparse, hwalk, fun hordered => ?_⟩
  have hnumbers : ((Node.forestWalk document.children).map
      fun node => (node.construct, node.site.line)).Pairwise fun upper lower => upper.2 < lower.2 :=
    List.pairwise_map.mpr hordered
  rw [hwalk] at hnumbers
  exact absurd hnumbers (by simp)

end Document

end Stylesheet
