import Stylesheet.Node.Basic

/-!
# Walks through a document

A document is walked through node by node: a node, those beneath it, its branches, and then the next
node beside it. A node stands at the root, beneath another node, or as an alternative branch of a
condition, and the walk comes to every node that the document holds, at the place where it stands.

- `Node.Place`: where a node stands.
- `Node.Holds`, `Document.Holds`: the nodes of a document, at any depth, with their places.
- `Node.forestWalk`: the nodes of a forest in the order of the walk.
- `Node.forestPlacedWalk`: the same walk with the places of its nodes. A position of this walk is a
  place in the document, also where two nodes are equal.
- `Node.mem_forestPlacedWalk_iff`: the walk comes to the nodes that are held, and to no others.
-/

namespace Stylesheet

variable {E : Type}

/-! ## Places -/

/-- Where a node stands. -/
inductive Node.Place where
  | root
  /-- Among the nodes beneath another node or beneath a branch. -/
  | beneath
  /-- Among the branches of a condition. -/
  | branch
deriving DecidableEq, Repr

/-- The place of the nodes that are put next to each other. -/
def Node.Place.ofRoot (root : Bool) : Node.Place := if root then .root else .beneath

theorem Node.Place.ofRoot_ne_branch (root : Bool) : Node.Place.ofRoot root ≠ .branch := by
  cases root <;> simp [Node.Place.ofRoot]

/-- A node at a place holds another node at a place: itself, or one that is held by a node beneath
it or by one of its branches. -/
inductive Node.Holds : Node.Place → Node E → Node.Place → Node E → Prop where
  | self {place : Node.Place} {node : Node E} : Holds place node place node
  | beneath {place inner : Node.Place} {node child other : Node E} (hchild : child ∈ node.children)
    (h : Holds .beneath child inner other) : Holds place node inner other
  | branch {place inner : Node.Place} {node branch other : Node E}
    (hbranch : branch ∈ node.branches) (h : Holds .branch branch inner other) :
    Holds place node inner other

/-- A document holds what the nodes at its root hold. -/
def Document.Holds (document : Document E) (place : Node.Place) (node : Node E) : Prop :=
  ∃ top ∈ document.children, Node.Holds .root top place node

namespace Node

/-! ## Walks -/

/-- A node without the nodes beneath it and without its branches. -/
def bare (node : Node E) : Node E := ⟨node.construct, node.site, [], []⟩

mutual

/-- A node, the nodes beneath it, and then its branches, each of them bare. -/
def walk : Node E → List (Node E)
  | ⟨construct, site, children, branches⟩ =>
    ⟨construct, site, [], []⟩ :: (forestWalk children ++ forestWalk branches)

/-- The walk of a forest. -/
def forestWalk : List (Node E) → List (Node E)
  | [] => []
  | node :: nodes => walk node ++ forestWalk nodes

end

theorem walk_eq (node : Node E) :
    node.walk = node.bare :: (forestWalk node.children ++ forestWalk node.branches) := by
  cases node
  rfl

/-- Forests behind each other are walked behind each other. -/
theorem forestWalk_append (front back : List (Node E)) :
    forestWalk (front ++ back) = forestWalk front ++ forestWalk back := by
  induction front with
  | nil => rfl
  | cons node front ih => rw [List.cons_append, forestWalk, forestWalk, ih, List.append_assoc]

theorem forestWalk_singleton (node : Node E) : forestWalk [node] = node.walk := by
  rw [forestWalk, forestWalk, List.append_nil]

/-- One more branch comes to the end of the walk. -/
theorem walk_addBranch (node branch : Node E) :
    (node.addBranch branch).walk = node.walk ++ branch.walk := by
  rw [walk_eq, walk_eq]
  show node.bare :: (forestWalk node.children ++ forestWalk (node.branches ++ [branch])) = _
  rw [forestWalk_append, forestWalk_singleton, List.cons_append, List.append_assoc]

/-- The walk of nodes that have nothing beneath them. -/
theorem forestWalk_of_bare {nodes : List (Node E)} (h : ∀ node ∈ nodes, node.bare = node) :
    forestWalk nodes = nodes := by
  induction nodes with
  | nil => rfl
  | cons node nodes ih =>
    obtain ⟨hnode, hnodes⟩ := List.forall_mem_cons.mp h
    have hwalk : node.walk = [node] := by
      rw [← hnode]
      rfl
    rw [forestWalk, hwalk, ih hnodes]
    rfl

/-! ## Walks with places -/

mutual

/-- The walk of a node that stands at a place, each node with the place where it stands. -/
def placedWalk (place : Place) : Node E → List (Place × Node E)
  | ⟨construct, site, children, branches⟩ =>
    (place, ⟨construct, site, [], []⟩) ::
      (forestPlacedWalk .beneath children ++ forestPlacedWalk .branch branches)

/-- The walk of a forest whose trees stand at a place. -/
def forestPlacedWalk (place : Place) : List (Node E) → List (Place × Node E)
  | [] => []
  | node :: nodes => placedWalk place node ++ forestPlacedWalk place nodes

end

variable {place inner : Place}

/-- A node at a place comes first, then the nodes beneath it, and then its branches. -/
theorem placedWalk_eq (place : Place) (node : Node E) :
    node.placedWalk place = (place, node.bare) ::
      (forestPlacedWalk .beneath node.children ++ forestPlacedWalk .branch node.branches) := by
  cases node
  rfl

theorem forestPlacedWalk_append (place : Place) (front back : List (Node E)) :
    forestPlacedWalk place (front ++ back) =
      forestPlacedWalk place front ++ forestPlacedWalk place back := by
  induction front with
  | nil => rfl
  | cons node front ih =>
    rw [List.cons_append, forestPlacedWalk, forestPlacedWalk, ih, List.append_assoc]

theorem forestPlacedWalk_singleton (place : Place) (node : Node E) :
    forestPlacedWalk place [node] = node.placedWalk place := by
  rw [forestPlacedWalk, forestPlacedWalk, List.append_nil]

/-- A branch that is added comes behind all that its condition holds already. -/
theorem placedWalk_addBranch (place : Place) (node branch : Node E) :
    (node.addBranch branch).placedWalk place =
      node.placedWalk place ++ branch.placedWalk .branch := by
  rw [placedWalk_eq, placedWalk_eq]
  show (place, node.bare) :: (forestPlacedWalk .beneath node.children ++
    forestPlacedWalk .branch (node.branches ++ [branch])) = _
  rw [forestPlacedWalk_append, forestPlacedWalk_singleton, List.cons_append, List.append_assoc]

/-- The walk of nodes that have nothing beneath them and no branches. -/
theorem forestPlacedWalk_of_bare {nodes : List (Node E)} (place : Place)
    (h : ∀ node ∈ nodes, node.bare = node) :
    forestPlacedWalk place nodes = nodes.map (Prod.mk place) := by
  induction nodes with
  | nil => rfl
  | cons node nodes ih =>
    obtain ⟨hnode, hnodes⟩ := List.forall_mem_cons.mp h
    have hwalk : node.placedWalk place = [(place, node)] := by
      rw [← hnode]
      rfl
    rw [forestPlacedWalk, hwalk, ih hnodes]
    rfl

mutual

/-- Without the places it is the same walk. -/
theorem map_snd_placedWalk : ∀ (place : Place) (node : Node E),
    (node.placedWalk place).map Prod.snd = node.walk
  | place, ⟨construct, site, children, branches⟩ => by
    rw [placedWalk, walk, List.map_cons, List.map_append, map_snd_forestPlacedWalk,
      map_snd_forestPlacedWalk]

/-- Without its places, a placed walk is the walk. -/
theorem map_snd_forestPlacedWalk : ∀ (place : Place) (nodes : List (Node E)),
    (forestPlacedWalk place nodes).map Prod.snd = forestWalk nodes
  | _, [] => rfl
  | place, node :: nodes => by
    rw [forestPlacedWalk, forestWalk, List.map_append, map_snd_placedWalk, map_snd_forestPlacedWalk]

end

/-! ## What a walk comes to -/

mutual

/-- A node that a walk comes to is held where it stands. -/
theorem holds_of_mem_placedWalk : ∀ (place : Place) (node : Node E) {inner : Place} {other : Node E},
    (inner, other) ∈ node.placedWalk place → ∃ full, Holds place node inner full ∧ full.bare = other
  | place, ⟨construct, site, children, branches⟩, inner, other, h => by
    rcases List.mem_cons.mp h with heq | h
    · cases heq
      exact ⟨_, .self, rfl⟩
    · rcases List.mem_append.mp h with h | h
      · obtain ⟨child, hchild, full, hholds, hbare⟩ := holds_of_mem_forestPlacedWalk _ children h
        exact ⟨full, .beneath hchild hholds, hbare⟩
      · obtain ⟨branch, hbranch, full, hholds, hbare⟩ := holds_of_mem_forestPlacedWalk _ branches h
        exact ⟨full, .branch hbranch hholds, hbare⟩

/-- Whatever a placed walk comes to is held at its place by one of the trees. -/
theorem holds_of_mem_forestPlacedWalk : ∀ (place : Place) (nodes : List (Node E)) {inner : Place}
    {other : Node E}, (inner, other) ∈ forestPlacedWalk place nodes →
    ∃ top ∈ nodes, ∃ full, Holds place top inner full ∧ full.bare = other
  | _, [], _, _, h => absurd h List.not_mem_nil
  | place, first :: rest, inner, other, h => by
    rcases List.mem_append.mp h with h | h
    · exact ⟨first, List.mem_cons_self, holds_of_mem_placedWalk place first h⟩
    · obtain ⟨top, htop, hholds⟩ := holds_of_mem_forestPlacedWalk place rest h
      exact ⟨top, List.mem_cons_of_mem _ htop, hholds⟩

end

theorem mem_forestPlacedWalk_of_mem {nodes : List (Node E)} {top : Node E} {entry : Place × Node E}
    (htop : top ∈ nodes) (h : entry ∈ top.placedWalk place) :
    entry ∈ forestPlacedWalk place nodes := by
  obtain ⟨front, back, rfl⟩ := List.append_of_mem htop
  rw [forestPlacedWalk_append, forestPlacedWalk]
  exact List.mem_append_right _ (List.mem_append_left _ h)

/-- The walk of a node comes to all that the node holds. -/
theorem Holds.mem_placedWalk {node other : Node E} (h : Holds place node inner other) :
    (inner, other.bare) ∈ node.placedWalk place := by
  induction h with
  | self =>
    rw [placedWalk_eq]
    exact List.mem_cons_self
  | beneath hchild _ ih =>
    rw [placedWalk_eq]
    exact List.mem_cons_of_mem _ (List.mem_append_left _ (mem_forestPlacedWalk_of_mem hchild ih))
  | branch hbranch _ ih =>
    rw [placedWalk_eq]
    exact List.mem_cons_of_mem _ (List.mem_append_right _ (mem_forestPlacedWalk_of_mem hbranch ih))

/-- The walk of a forest comes to the nodes that its trees hold, each at its place, and to no
others. -/
theorem mem_forestPlacedWalk_iff {nodes : List (Node E)} {other : Node E} :
    (inner, other) ∈ forestPlacedWalk place nodes ↔
      ∃ top ∈ nodes, ∃ full, Holds place top inner full ∧ full.bare = other := by
  constructor
  · exact holds_of_mem_forestPlacedWalk place nodes
  · rintro ⟨top, htop, full, hholds, rfl⟩
    exact mem_forestPlacedWalk_of_mem htop hholds.mem_placedWalk

/-- A node of a walk is held by one of the nodes that are walked through, wherever these stand. -/
theorem holds_of_mem_forestWalk {nodes : List (Node E)} {other : Node E} (place : Place)
    (h : other ∈ forestWalk nodes) :
    ∃ top ∈ nodes, ∃ inner full, Holds place top inner full ∧ full.bare = other := by
  rw [← map_snd_forestPlacedWalk place nodes] at h
  obtain ⟨⟨inner, other⟩, hentry, rfl⟩ := List.mem_map.mp h
  obtain ⟨top, htop, full, hholds⟩ := mem_forestPlacedWalk_iff.mp hentry
  exact ⟨top, htop, inner, full, hholds⟩

end Node

end Stylesheet
