import Stylesheet.Proofs.Construct.Parts
import Stylesheet.Proofs.Document.Places
import Stylesheet.Proofs.Document.Runs

/-!
# Every node of a document stems from a line

The nodes of a document, at any depth and behind any branches, have the constructs that its lines
give them, and stand where these lines do. Only rules are put together from several lines.

- `Outcome.Gives`: the nodes that a line gives to a place.
- `Node.StemsFrom`: a node is one that the reading of a line gives, or a rule.
- `Assembly.stems_line`, `Assembly.stems_forest`: this is true of all nodes behind one more line, or
  behind a forest of lines.
- `Document.stemsFrom_of_holds`: it is true of all nodes of a document.
- `Construct.partsAt`, `Document.asked_of_holds`: each expression of a document is what the services
  have answered for a slot of a line.
- `Document.literal_of_holds`: the text of each attribute is one that a line was read with.
-/

namespace Stylesheet

open Parsing

variable {σ E : Type}

/-- A node has the construct and the site that a line gives to a node at the place. -/
def Outcome.Gives (place : Node.Place) (given : Node E) : Outcome E → Prop
  | .node single => place ≠ .branch ∧ given.construct = single.construct ∧ given.site = single.site
  | .nodes all =>
    place ≠ .branch ∧ ∃ each ∈ all, given.construct = each.construct ∧ given.site = each.site
  | .branch alternative =>
    place = .branch ∧ given.construct = alternative.construct ∧ given.site = alternative.site

/-- A node at a place that is a rule, or that the reading of one of the lines gives. -/
def Node.StemsFrom (services : Services σ E) (directories : List Text) (lines : List Line)
    (place : Node.Place) (node : Node E) : Prop :=
  (place ≠ .branch ∧ node.construct.isRule = true) ∨
    ∃ line reading outcome state next, { line with children := [] } ∈ lines ∧
      Reading.ofLine true line = .ok reading ∧
      Yields (reading.resolve services directories line) state outcome next ∧
      outcome.Gives place node ∧ node.site = line.site

/-- All nodes that a node holds stem from the lines. -/
def Node.Stems (services : Services σ E) (directories : List Text) (lines : List Line)
    (place : Node.Place) (node : Node E) : Prop :=
  ∀ inner other, Node.Holds place node inner other →
    other.StemsFrom services directories lines inner

/-- So do all that are held by the nodes put next to each other so far. -/
def Siblings.Stems (services : Services σ E) (directories : List Text) (lines : List Line)
    (root : Bool) (siblings : Siblings E) : Prop :=
  ∀ node ∈ siblings.placed, node.Stems services directories lines (.ofRoot root)

variable {services : Services σ E} {directories : List Text} {lines : List Line}

namespace Node

variable {place : Node.Place} {node branch : Node E}

/-- A node without branches stems from the lines if it does itself and those beneath it do. -/
theorem Stems.of_children (hbranches : node.branches = [])
    (hnode : node.StemsFrom services directories lines place)
    (hchildren : ∀ child ∈ node.children, child.Stems services directories lines .beneath) :
    node.Stems services directories lines place := by
  intro inner other h
  cases h with
  | self => exact hnode
  | beneath hchild h => exact hchildren _ hchild _ _ h
  | branch hbranch h =>
    rw [hbranches] at hbranch
    exact absurd hbranch List.not_mem_nil

/-- A condition goes on stemming from the lines with one more branch that does. -/
theorem Stems.addBranch (hnode : node.Stems services directories lines place)
    (hbranch : branch.Stems services directories lines .branch) :
    (node.addBranch branch).Stems services directories lines place := by
  intro inner other h
  cases h with
  | self => exact hnode place node .self
  | beneath hchild h => exact hnode _ _ (.beneath hchild h)
  | branch hmem h =>
    rcases List.mem_append.mp hmem with hmem | hmem
    · exact hnode _ _ (.branch hmem h)
    · rw [List.mem_singleton.mp hmem] at h
      exact hbranch _ _ h

end Node

/-! ## Assembling lines -/

namespace Assembly

variable {root : Bool} {siblings added : Siblings E} {state next : σ} {line : Line}

/-- What a line puts behind its siblings stems from it, if what it puts beneath stems from the
lines. -/
theorem stems_add {reading : Reading} {outcome completed : Outcome E} {middle : σ}
    (hsiblings : siblings.Stems services directories lines root)
    (hline : { line with children := [] } ∈ lines)
    (hread : Reading.ofLine siblings.afterConditional line = .ok reading)
    (hresolve : Yields (reading.resolve services directories line) state outcome middle)
    (hcompletes : Completes services directories line middle outcome completed next)
    (hbeneath : ∀ nested nodes state next,
      Yields (forest services directories false {} line.children) state nested next →
      nested.finish = .ok nodes → ∀ node ∈ nodes, node.Stems services directories lines .beneath)
    (hadd : siblings.add root line completed = .ok added) :
    added.Stems services directories lines root := by
  have hechoes := Reading.echoes_of_resolve (Reading.echoes_of_ofLine hread) hresolve
  have hplace := Node.Place.ofRoot_ne_branch root
  -- what the line gives was read from it, on whichever side of a condition it stands
  have hstems : ∀ place node, outcome.Gives place node → node.site = line.site →
      node.StemsFrom services directories lines place := by
    intro place node hgives hsite
    exact .inr ⟨line, reading, outcome, state, middle, hline, Reading.ofLine_true hread, hresolve,
      hgives, hsite⟩
  cases hcompletes with
  | comment hcomment =>
    obtain ⟨c, rfl, -⟩ := hechoes
    have hrule : c.isRule = false := by
      cases c <;> first | rfl | cases hcomment
    obtain ⟨-, rfl⟩ := Siblings.add_node hrule hadd
    refine List.forall_mem_cons.mpr ⟨?_, hsiblings⟩
    exact .of_children rfl (hstems _ _ ⟨hplace, rfl, rfl⟩ rfl) fun _ hchild =>
      absurd hchild List.not_mem_nil
  | node hcomment hnested hfinish =>
    obtain ⟨c, rfl, -⟩ := hechoes
    have hnodes := hbeneath _ _ _ _ hnested hfinish
    cases hrule : c.isRule with
    | true =>
      match c, hrule with
      | .rule selectors, _ =>
        -- a rule that goes on gives no node yet, and the node that ends it may be any rule
        rcases Siblings.add_rule rfl hadd with ⟨-, rfl⟩ | ⟨-, -, rfl⟩
        · exact List.forall_mem_cons.mpr
            ⟨.of_children rfl (.inl ⟨hplace, rfl⟩) hnodes, hsiblings⟩
        · exact hsiblings
    | false =>
      obtain ⟨-, rfl⟩ := Siblings.add_node hrule hadd
      exact List.forall_mem_cons.mpr
        ⟨.of_children rfl (hstems _ _ ⟨hplace, rfl, rfl⟩ rfl) hnodes, hsiblings⟩
  | nodes =>
    obtain ⟨-, -, hnodes⟩ := hechoes
    obtain ⟨-, rfl⟩ := Siblings.add_nodes hadd
    intro node hnode
    rcases List.mem_append.mp hnode with hnode | hnode
    · have hmem := List.mem_reverse.mp hnode
      obtain ⟨c, rfl, -⟩ := hnodes node hmem
      exact .of_children rfl (hstems _ _ ⟨hplace, _, hmem, rfl, rfl⟩ rfl) fun _ hchild =>
        absurd hchild List.not_mem_nil
    · exact hsiblings node hnode
  | branch hnested hfinish =>
    obtain ⟨hcond, test, rfl⟩ := hechoes
    -- the branch goes to the newest node, which stems from the lines itself
    obtain ⟨newest, rest, hplaced, -, -, rfl⟩ := Siblings.add_branch hcond hadd
    have hall : ∀ node ∈ newest :: rest,
        node.Stems services directories lines (.ofRoot root) := by
      rw [← hplaced]
      exact hsiblings
    obtain ⟨hnewest, hrest⟩ := List.forall_mem_cons.mp hall
    refine List.forall_mem_cons.mpr ⟨hnewest.addBranch ?_, hrest⟩
    exact .of_children rfl (hstems _ _ ⟨rfl, rfl, rfl⟩ rfl) (hbeneath _ _ _ _ hnested hfinish)

mutual

/-- All nodes stem from the lines, also those that one more line and those beneath it give. -/
theorem stems_line : ∀ (line : Line) {root : Bool} {siblings added : Siblings E} {state next : σ},
    Yields (Assembly.line services directories root siblings line) state added next →
    (∀ each ∈ line.preorder, each ∈ lines) → siblings.Stems services directories lines root →
    added.Stems services directories lines root
  | ⟨text, depth, index, offset, filename, children⟩, _, _, _, _, _, h, hlines, hsiblings => by
    obtain ⟨reading, outcome, completed, middle, hread, hresolve, hcompletes, hadd⟩ := line_steps h
    obtain ⟨hline, hbelow⟩ := List.forall_mem_cons.mp hlines
    refine stems_add hsiblings hline hread hresolve hcompletes
      (fun nested nodes state next hnested hfinish => ?_) hadd
    obtain ⟨-, rfl⟩ := Siblings.finish_eq_ok.mp hfinish
    have hnested := stems_forest children hnested hbelow fun _ hmem => absurd hmem List.not_mem_nil
    intro node hnode
    exact hnested node (List.mem_reverse.mp hnode)

/-- So do those that the lines of a forest give. -/
theorem stems_forest : ∀ (trees : List Line) {root : Bool} {siblings added : Siblings E}
    {state next : σ},
    Yields (forest services directories root siblings trees) state added next →
    (∀ each ∈ Line.forestPreorder trees, each ∈ lines) →
    siblings.Stems services directories lines root → added.Stems services directories lines root
  | [], _, _, _, _, _, h, _, hsiblings => by
    rw [forest_nil h]
    exact hsiblings
  | first :: rest, _, _, _, _, _, h, hlines, hsiblings => by
    obtain ⟨between, middle, hfirst, hrest⟩ := forest_cons h
    obtain ⟨hhead, htail⟩ := List.forall_mem_append.mp hlines
    exact stems_forest rest hrest htail (stems_line first hfirst hhead hsiblings)

end

end Assembly

/-! ## Documents -/

/-- Every node of a document is a rule, or one of the source's lines gives it. -/
theorem Document.stemsFrom_of_holds {overrides : Overrides} {source : Text} {document : Document E}
    {state next : σ} (h : Yields (parseWith services overrides source) state document next) :
    ∃ lines, Line.ofSource source overrides.resolve.firstLine overrides.filename = .ok lines ∧
      ∀ place node, document.Holds place node →
        node.StemsFrom services overrides.resolve.searchPath lines place := by
  obtain ⟨lines, trees, after, siblings, hlines, hnest, hforest, hfinish, -⟩ := steps_of_parseWith h
  obtain ⟨-, hchildren⟩ := Siblings.finish_eq_ok.mp hfinish
  refine ⟨lines, hlines, ?_⟩
  rintro place node ⟨top, htop, hholds⟩
  have hlines' : ∀ each ∈ Line.forestPreorder trees, each ∈ lines := by
    intro each heach
    rwa [Line.forestPreorder_of_nest hlines hnest] at heach
  have hsiblings := Assembly.stems_forest trees hforest hlines' fun _ hmem =>
    absurd hmem List.not_mem_nil
  rw [← hchildren] at htop
  exact hsiblings top (List.mem_reverse.mp htop) place node hholds

/-! ## Expressions and texts -/

namespace Construct

/-- The expressions of a construct at a place. A condition among the branches is an alternative. -/
def partsAt (place : Node.Place) (c : Construct E) : List (Part × E) :=
  match place, c with
  | .branch, .conditional (some test) => [(.alternative, test)]
  | _, c => c.parts

/-- Only a branch gives its test another role. -/
theorem partsAt_of_ne_branch {place : Node.Place} (h : place ≠ .branch) (c : Construct E) :
    c.partsAt place = c.parts := by
  cases place with
  | branch => exact absurd rfl h
  | root | beneath => rfl

/-- Each expression of a construct has been filled in for the slot of the same part. -/
theorem mem_parts_of_traverse {f : Slot → Parsing σ E} {c : Construct Slot} {filled : Construct E}
    {state next : σ} {part : Part} {e : E} (h : Yields (c.traverse f) state filled next)
    (he : (part, e) ∈ filled.parts) :
    ∃ slot, (part, slot) ∈ c.parts ∧ ∃ before after, Yields (f slot) before e after := by
  -- by how many slots a construct has: none, a single one, the two bounds of a loop, or a list of
  -- them
  match c, h with
  | .rule _, h | .comment _ _ _, h | .directive _, h | .attribute _ (.literal _) _, h
  | .conditional none, h | .fileImport _, h | .cssImport _, h =>
    obtain ⟨rfl, -⟩ := yields_pure.mp h
    exact absurd he List.not_mem_nil
  | .attribute _ (.expression slot) _, h | .binding _ slot _, h | .conditional (some slot), h
  | .whileLoop slot, h | .debug slot, h =>
    obtain ⟨e', _, hslot, h⟩ := yields_bind.mp h
    obtain ⟨rfl, -⟩ := yields_pure.mp h
    cases List.mem_singleton.mp he
    exact ⟨slot, List.mem_cons_self, _, _, hslot⟩
  | .forLoop _ first last _, h =>
    obtain ⟨e', _, hfirst, h⟩ := yields_bind.mp h
    obtain ⟨e'', _, hlast, h⟩ := yields_bind.mp h
    obtain ⟨rfl, -⟩ := yields_pure.mp h
    rcases List.mem_cons.mp he with heq | he
    · cases heq
      exact ⟨first, List.mem_cons_self, _, _, hfirst⟩
    · cases List.mem_singleton.mp he
      exact ⟨last, List.mem_cons_of_mem _ List.mem_cons_self, _, _, hlast⟩
  | .mixinInclude _ arguments, h =>
    obtain ⟨filled, _, hfilled, h⟩ := yields_bind.mp h
    obtain ⟨rfl, -⟩ := yields_pure.mp h
    obtain ⟨_, he, heq⟩ := List.mem_map.mp he
    cases heq
    obtain ⟨slot, hslot, before, after, hyields⟩ := mem_of_yields_mapM hfilled he
    exact ⟨slot, List.mem_map_of_mem hslot, before, after, hyields⟩
  | .mixinDefinition _ parameters, h =>
    obtain ⟨filled, _, hfilled, h⟩ := yields_bind.mp h
    obtain ⟨rfl, -⟩ := yields_pure.mp h
    obtain ⟨parameter, hparameter, he⟩ := List.mem_flatMap.mp he
    obtain ⟨read, hread, before, after, hyields⟩ := mem_of_yields_mapM hfilled hparameter
    -- a parameter without a default has no slot
    match read, hread, hyields with
    | ⟨name, none⟩, _, hyields =>
      obtain ⟨rfl, -⟩ := yields_pure.mp hyields
      exact absurd he List.not_mem_nil
    | ⟨name, some slot⟩, hread, hyields =>
      obtain ⟨e', _, hslot, hyields⟩ := yields_bind.mp hyields
      obtain ⟨rfl, -⟩ := yields_pure.mp hyields
      cases List.mem_singleton.mp he
      exact ⟨slot, List.mem_flatMap.mpr ⟨_, hread, List.mem_cons_self⟩, _, _, hslot⟩

/-- Filling in leaves the text of an attribute as it is. -/
theorem literal_of_traverse {f : Slot → Parsing σ E} {c : Construct Slot} {state next : σ}
    {name text : Text} {form : AttributeForm}
    (h : Yields (c.traverse f) state (.attribute name (.literal text) form) next) :
    c = .attribute name (.literal text) form := by
  -- every construct stays of its kind, and only a literal has a text of its own
  match c, h with
  | .rule _, h | .comment _ _ _, h | .directive _, h | .conditional none, h | .fileImport _, h
  | .cssImport _, h => cases (yields_pure.mp h).1
  | .attribute _ (.literal _) _, h =>
    cases (yields_pure.mp h).1
    rfl
  | .attribute _ (.expression slot) _, h | .binding _ slot _, h | .conditional (some slot), h
  | .whileLoop slot, h | .debug slot, h =>
    obtain ⟨_, _, -, h⟩ := yields_bind.mp h
    cases (yields_pure.mp h).1
  | .forLoop _ _ _ _, h =>
    obtain ⟨_, _, -, h⟩ := yields_bind.mp h
    obtain ⟨_, _, -, h⟩ := yields_bind.mp h
    cases (yields_pure.mp h).1
  | .mixinInclude _ _, h | .mixinDefinition _ _, h =>
    obtain ⟨_, _, -, h⟩ := yields_bind.mp h
    cases (yields_pure.mp h).1

end Construct

/-- To fill in a slot is to make the one call for it. -/
theorem Services.yields_fill {line : Line} {slot : Slot} {state next : σ} {e : E} :
    Yields (services.fill line slot) state e next ↔
      services.parse (line.request slot) state = (.ok e, next) := by
  unfold Yields Services.fill
  rw [outcome_call, Prod.mk.injEq, mapError_eq_ok, Prod.ext_iff]
  exact Iff.rfl

/-- Each expression of a node that a line gives has been asked for, and is the answer. -/
theorem Reading.asked_of_resolve {line : Line} {reading : Reading} {outcome : Outcome E}
    {state next : σ} {place : Node.Place} {node : Node E} {part : Part} {e : E}
    (h : Yields (reading.resolve services directories line) state outcome next)
    (hgives : outcome.Gives place node) (he : (part, e) ∈ node.construct.partsAt place) :
    ∃ slot, .expression part slot ∈ reading.asks ∧
      ∃ before after, services.parse (line.request slot) before = (.ok e, after) := by
  -- an expression is asked for where its slot is filled in, whichever of the readings holds it
  match reading, h with
  | .construct c', h =>
    obtain ⟨filled, _, hfilled, h⟩ := yields_bind.mp h
    obtain ⟨rfl, -⟩ := yields_pure.mp h
    obtain ⟨hplace, hc, -⟩ := hgives
    rw [hc, Construct.partsAt_of_ne_branch hplace] at he
    obtain ⟨slot, hslot, before, after, hyields⟩ := Construct.mem_parts_of_traverse hfilled he
    exact ⟨slot, mem_asksOf.mpr hslot, before, after, Services.yields_fill.mp hyields⟩
  | .definition _ parameters, h =>
    obtain ⟨filled, _, hfilled, h⟩ := yields_bind.mp h
    obtain ⟨rfl, -⟩ := yields_pure.mp h
    obtain ⟨hplace, hc, -⟩ := hgives
    rw [hc, Construct.partsAt_of_ne_branch hplace] at he
    obtain ⟨parameter, hparameter, he⟩ := List.mem_flatMap.mp he
    obtain ⟨read, hread, before, after, hyields⟩ := mem_of_yields_mapM hfilled hparameter
    match read, hread, hyields with
    | .error cause, _, hyields => cases hyields
    | .ok ⟨name, none⟩, _, hyields =>
      obtain ⟨rfl, -⟩ := yields_pure.mp hyields
      exact absurd he List.not_mem_nil
    | .ok ⟨name, some slot⟩, hread, hyields =>
      obtain ⟨e', _, hslot, hyields⟩ := yields_bind.mp hyields
      obtain ⟨rfl, -⟩ := yields_pure.mp hyields
      cases List.mem_singleton.mp he
      exact ⟨slot, List.mem_flatMap.mpr ⟨_, hread, List.mem_cons_self⟩, _, _,
        Services.yields_fill.mp hslot⟩
  | .imports entries, h =>
    obtain ⟨constructs, _, hconstructs, h⟩ := yields_bind.mp h
    obtain ⟨rfl, -⟩ := yields_pure.mp h
    obtain ⟨hplace, each, heach, hc, -⟩ := hgives
    obtain ⟨c', hmem, rfl⟩ := List.mem_map.mp heach
    rw [hc, Construct.partsAt_of_ne_branch hplace] at he
    obtain ⟨entry, -, _, _, hyields⟩ := mem_of_yields_mapM hconstructs hmem
    -- imports hold no expressions
    have himport := isImport_of_resolveEntry hyields
    match c', himport, he with
    | .fileImport _, _, he | .cssImport _, _, he => exact absurd he List.not_mem_nil
  | .branch none, h =>
    obtain ⟨rfl, -⟩ := yields_pure.mp h
    obtain ⟨rfl, hc, -⟩ := hgives
    rw [hc] at he
    exact absurd he List.not_mem_nil
  | .branch (some slot), h =>
    obtain ⟨test, _, htest, h⟩ := yields_bind.mp h
    obtain ⟨rfl, -⟩ := yields_pure.mp h
    obtain ⟨rfl, hc, -⟩ := hgives
    rw [hc] at he
    cases List.mem_singleton.mp he
    exact ⟨slot, List.mem_cons_self, _, _, Services.yields_fill.mp htest⟩

/-- The text that an attribute keeps is the one that its line has been read with. -/
theorem Reading.literal_of_resolve {line : Line} {reading : Reading} {outcome : Outcome E}
    {state next : σ} {place : Node.Place} {node : Node E} {name text : Text} {form : AttributeForm}
    (h : Yields (reading.resolve services directories line) state outcome next)
    (hgives : outcome.Gives place node)
    (hconstruct : node.construct = .attribute name (.literal text) form) :
    reading = .construct (.attribute name (.literal text) form) := by
  -- no other reading gives an attribute
  match reading, h with
  | .construct c', h =>
    obtain ⟨filled, _, hfilled, h⟩ := yields_bind.mp h
    obtain ⟨rfl, -⟩ := yields_pure.mp h
    obtain ⟨-, hc, -⟩ := hgives
    cases hconstruct.symm.trans hc
    rw [Construct.literal_of_traverse hfilled]
  | .definition _ parameters, h =>
    obtain ⟨filled, _, -, h⟩ := yields_bind.mp h
    obtain ⟨rfl, -⟩ := yields_pure.mp h
    obtain ⟨-, hc, -⟩ := hgives
    rw [hconstruct] at hc
    cases hc
  | .imports entries, h =>
    obtain ⟨constructs, _, hconstructs, h⟩ := yields_bind.mp h
    obtain ⟨rfl, -⟩ := yields_pure.mp h
    obtain ⟨-, each, heach, hc, -⟩ := hgives
    obtain ⟨c', hmem, rfl⟩ := List.mem_map.mp heach
    obtain ⟨entry, -, _, _, hyields⟩ := mem_of_yields_mapM hconstructs hmem
    have himport : node.construct.isImport = true := hc ▸ isImport_of_resolveEntry hyields
    rw [hconstruct] at himport
    cases himport
  | .branch none, h =>
    obtain ⟨rfl, -⟩ := yields_pure.mp h
    obtain ⟨-, hc, -⟩ := hgives
    rw [hconstruct] at hc
    cases hc
  | .branch (some slot), h =>
    obtain ⟨test, _, -, h⟩ := yields_bind.mp h
    obtain ⟨rfl, -⟩ := yields_pure.mp h
    obtain ⟨-, hc, -⟩ := hgives
    rw [hconstruct] at hc
    cases hc

/-- Each expression of a document is what the services have answered for a slot of a line. -/
theorem Document.asked_of_holds {overrides : Overrides} {source : Text} {document : Document E}
    {state next : σ} {place : Node.Place} {node : Node E} {part : Part} {e : E}
    (h : Yields (parseWith services overrides source) state document next)
    (hholds : document.Holds place node) (he : (part, e) ∈ node.construct.partsAt place) :
    ∃ lines line reading slot,
      Line.ofSource source overrides.resolve.firstLine overrides.filename = .ok lines ∧
      { line with children := [] } ∈ lines ∧ Reading.ofLine true line = .ok reading ∧
      .expression part slot ∈ reading.asks ∧
      ∃ before after, services.parse (line.request slot) before = (.ok e, after) := by
  obtain ⟨lines, hlines, hstems⟩ := stemsFrom_of_holds h
  rcases hstems place node hholds with ⟨hplace, hrule⟩ | hgiven
  · rw [Construct.partsAt_of_ne_branch hplace] at he
    match hconstruct : node.construct, hrule with
    | .rule selectors, _ =>
      rw [hconstruct] at he
      exact absurd he List.not_mem_nil
  · obtain ⟨line, reading, outcome, _, _, hline, hread, hresolve, hgives, -⟩ := hgiven
    obtain ⟨slot, hslot, hanswer⟩ := Reading.asked_of_resolve hresolve hgives he
    exact ⟨lines, line, reading, slot, hlines, hline, hread, hslot, hanswer⟩

/-- The text that an attribute of a document keeps is one that a line was read with. -/
theorem Document.literal_of_holds {overrides : Overrides} {source : Text} {document : Document E}
    {state next : σ} {place : Node.Place} {node : Node E} {name text : Text} {form : AttributeForm}
    (h : Yields (parseWith services overrides source) state document next)
    (hholds : document.Holds place node)
    (hconstruct : node.construct = .attribute name (.literal text) form) :
    ∃ lines line,
      Line.ofSource source overrides.resolve.firstLine overrides.filename = .ok lines ∧
      { line with children := [] } ∈ lines ∧ node.site = line.site ∧
      Reading.ofLine true line = .ok (.construct (.attribute name (.literal text) form)) := by
  obtain ⟨lines, hlines, hstems⟩ := stemsFrom_of_holds h
  rcases hstems place node hholds with ⟨-, hrule⟩ | hgiven
  · rw [hconstruct] at hrule
    cases hrule
  · obtain ⟨line, reading, outcome, _, _, hline, hread, hresolve, hgives, hsite⟩ := hgiven
    rw [Reading.literal_of_resolve hresolve hgives hconstruct] at hread
    exact ⟨lines, line, hlines, hline, hsite, hread⟩

end Stylesheet
