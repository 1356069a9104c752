import Mathlib.Data.List.Basic
import Stylesheet.Proofs.Document.Accounts
import Stylesheet.Proofs.Document.Calls

/-!
# The answers of a document

A document that is read keeps the answers that it was given, in the order of the calls.

- `Kept`: what an answer leaves in a document: an expression of the node that stands where the call
  was made, or an import. `Services.Call.kept?` tells it from the call, and `Node.kept` from the
  node.
- `Gains`: what is kept of a list of calls and not yet of a shorter one. `Parsing.Keeps`: a
  computation with noted calls gives what keeps their answers; there is one lemma for each way to
  build a computation.
- `Siblings.kept_add`: what is put behind siblings is kept behind what they keep, also where it is
  put out of line, as a branch is.
- `Assembly.keeps_line`, `Assembly.keeps_forest`: the invariant survives one more line, or a forest.
- `Document.answers_of_parseWith`: the answers are the expressions of the document, in its order.
-/

namespace Stylesheet

open Parsing

variable {σ E α β γ : Type}

/-! ## What is kept -/

/-- What the answer to a call leaves in a document. -/
inductive Kept (E : Type) where
  /-- An expression of a node that stands there. -/
  | expression (site : Site) (e : E)
  /-- An import of another stylesheet. -/
  | sheet (path : Text)

/-- What a call leaves in a document. A plain style sheet is not kept by its path. -/
def Services.Call.kept? : Services.Call E → Option (Kept E)
  | .expression request (.ok e) => some (.expression request.site e)
  | .sheet _ _ (.ok path) => if cssExtension.isSuffixOf path then none else some (.sheet path)
  | _ => none

/-- What is kept of the expressions of parts at a site. -/
def Kept.ofParts (site : Site) (parts : List (Part × E)) : List (Kept E) :=
  parts.map fun part => .expression site part.2

/-- What a construct at a site keeps, from left to right. -/
def Construct.kept (site : Site) : Construct E → List (Kept E)
  | .fileImport path => [.sheet path]
  | c => Kept.ofParts site c.parts

/-- What a node keeps itself. -/
def Node.kept (node : Node E) : List (Kept E) := node.construct.kept node.site

/-- What nodes keep, each of them before those beneath it, and these before its branches. -/
def Node.forestKept (nodes : List (Node E)) : List (Kept E) := (forestWalk nodes).flatMap kept

namespace Node

theorem forestKept_append (front back : List (Node E)) :
    forestKept (front ++ back) = forestKept front ++ forestKept back := by
  unfold forestKept
  rw [forestWalk_append, List.flatMap_append]

theorem forestKept_singleton (node : Node E) :
    forestKept [node] = node.kept ++ (forestKept node.children ++ forestKept node.branches) := by
  unfold forestKept
  rw [forestWalk_singleton, walk_eq, List.flatMap_cons, List.flatMap_append]
  rfl

/-- A branch comes behind all that its condition keeps. -/
theorem forestKept_addBranch (node branch : Node E) :
    forestKept [node.addBranch branch] = forestKept [node] ++ forestKept [branch] := by
  unfold forestKept
  rw [forestWalk_singleton, walk_addBranch, forestWalk_singleton, forestWalk_singleton,
    List.flatMap_append]

end Node

/-! ## Computations that keep answers -/

/-- What is kept of the later calls is what is kept of the earlier ones, and then this. -/
def Gains (earlier later : List (Services.Call E)) (kept : List (Kept E)) : Prop :=
  later.filterMap Services.Call.kept? = earlier.filterMap Services.Call.kept? ++ kept

namespace Gains

variable {earlier middle later : List (Services.Call E)} {kept more : List (Kept E)}

theorem refl (calls : List (Services.Call E)) : Gains calls calls [] := (List.append_nil _).symm

theorem trans (h : Gains earlier middle kept) (h' : Gains middle later more) :
    Gains earlier later (kept ++ more) := by
  unfold Gains at *
  rw [h', h, List.append_assoc]

/-- One more call keeps what its answer leaves. -/
theorem single {call : Services.Call E} (calls : List (Services.Call E)) :
    Gains calls (calls ++ [call]) call.kept?.toList := by
  unfold Gains
  rw [List.filterMap_append]
  cases hcall : call.kept? with
  | none => rw [List.filterMap_cons_none hcall]; rfl
  | some kept => rw [List.filterMap_cons_some hcall]; rfl

end Gains

/-- What a computation with noted calls gives keeps the answers to the calls that it makes. -/
def Parsing.Keeps (p : Parsing (σ × List (Services.Call E)) α) (kept : α → List (Kept E)) : Prop :=
  ∀ before a after, Yields p before a after → Gains before.2 after.2 (kept a)

namespace Parsing

variable {p : Parsing (σ × List (Services.Call E)) α} {kept : α → List (Kept E)}

theorem keeps_pure {a : α} (h : kept a = []) :
    Keeps (pure a : Parsing (σ × List (Services.Call E)) α) kept := by
  intro before b after hyields
  obtain ⟨rfl, rfl⟩ := yields_pure.mp hyields
  rw [h]
  exact .refl _

theorem keeps_throw {e : SyntaxError} :
    Keeps (throw e : Parsing (σ × List (Services.Call E)) α) kept := by
  intro before a after hyields
  cases hyields

theorem Keeps.map_pure (hp : Keeps p kept) {g : α → β} {kept' : β → List (Kept E)}
    (hg : ∀ a, kept' (g a) = kept a) : Keeps (p >>= fun a => pure (g a)) kept' := by
  intro before b after hyields
  obtain ⟨a, middle, ha, hyields⟩ := yields_bind.mp hyields
  obtain ⟨rfl, rfl⟩ := yields_pure.mp hyields
  rw [hg]
  exact hp before a middle ha

/-- What is kept of a list is what is kept of its members, in their order. -/
theorem keeps_mapM {g : γ → Parsing (σ × List (Services.Call E)) α} (kept : α → List (Kept E))
    (xs : List γ) (h : ∀ x ∈ xs, Keeps (g x) kept) :
    Keeps (xs.mapM g) fun values => values.flatMap kept := by
  induction xs with
  | nil => exact keeps_pure rfl
  | cons x xs ih =>
    obtain ⟨hx, hxs⟩ := List.forall_mem_cons.mp h
    intro before values after hyields
    obtain ⟨first, middle, rest, hfirst, hrest, rfl⟩ := yields_mapM_cons.mp hyields
    show Gains before.2 after.2 (kept first ++ rest.flatMap kept)
    exact (hx before first middle hfirst).trans (ih hxs middle rest after hrest)

end Parsing

/-! ## Calls for a line -/

namespace Services

variable {services : Services σ E} {directories : List Text} {line : Line}

/-- A call that is served keeps its answer, and one that is refused gives nothing to keep. -/
theorem keeps_call (note : Except Text α → Call E)
    {ask : StateM σ (Except Text α)} {ask' : StateM (σ × List (Call E)) (Except Text α)}
    (hask : ∀ state noted,
      ask' (state, noted) = ((ask state).1, (ask state).2, noted ++ [note (ask state).1])) :
    Keeps (call line ask') fun a => (note (.ok a)).kept?.toList := by
  rintro ⟨state, noted⟩ a after hyields
  unfold Yields at hyields
  rw [outcome_call, hask] at hyields
  obtain ⟨hanswer, rfl⟩ := Prod.mk.inj hyields
  rw [mapError_eq_ok] at hanswer
  show Gains noted (noted ++ [note (ask state).1]) _
  have hsame : (ask state).1 = .ok a := hanswer
  rw [hsame]
  exact .single noted

/-- An expression is kept for the site at which it was asked for. -/
theorem keeps_fill (slot : Slot) :
    Keeps (services.recorded.fill line slot) fun e => [.expression line.site e] :=
  keeps_call (Call.expression (line.request slot)) fun _ _ => rfl

/-- What is found is kept by its path, unless it is a plain style sheet. -/
theorem keeps_find (name : Text) :
    Keeps (services.recorded.find directories line name) fun path =>
      if cssExtension.isSuffixOf path then [] else [.sheet path] := by
  intro before path after hyields
  have hkept := keeps_call (Call.sheet name directories) (fun _ _ => rfl) before path after hyields
  simp only [Call.kept?] at hkept ⊢
  split at hkept
  · rename_i hcss
    rwa [if_pos hcss]
  · rename_i hcss
    rwa [if_neg hcss]

end Services

/-! ## Lines that have been read -/

variable {services : Services σ E} {directories : List Text} {line : Line}

/-- What parameters keep of their defaults. -/
theorem Construct.ofParts_mixinDefinition (name : Text) (parameters : List (Parameter E))
    (site : Site) :
    Kept.ofParts site (mixinDefinition name parameters).parts =
      parameters.flatMap fun parameter => Kept.ofParts site parameter.parts :=
  List.map_flatMap

/-- A construct keeps the answers for its expressions, from left to right. -/
theorem Construct.keeps_traverse (c : Construct Slot) :
    Keeps (c.traverse (services.recorded.fill line)) fun filled =>
      Kept.ofParts line.site filled.parts := by
  match c with
  | .rule _ | .attribute _ (.literal _) _ | .comment _ _ _ | .directive _ | .conditional none
  | .fileImport _ | .cssImport _ => exact keeps_pure rfl
  | .attribute _ (.expression slot) _ | .binding _ slot _ | .conditional (some slot) | .whileLoop slot
  | .debug slot => exact (Services.keeps_fill slot).map_pure fun _ => rfl
  -- two expressions of one line: the call for the first comes first
  | .forLoop _ first last _ =>
    intro before filled after hyields
    obtain ⟨_, middle, hfirst, hyields⟩ := yields_bind.mp hyields
    obtain ⟨_, next, hlast, hyields⟩ := yields_bind.mp hyields
    obtain ⟨rfl, rfl⟩ := yields_pure.mp hyields
    exact (Services.keeps_fill first _ _ _ hfirst).trans (Services.keeps_fill last _ _ _ hlast)
  | .mixinInclude name arguments =>
    refine (keeps_mapM (fun e => [.expression line.site e]) arguments fun slot _ =>
      Services.keeps_fill slot).map_pure fun values => ?_
    simp only [Kept.ofParts, parts, List.map_map]
    exact List.map_eq_flatMap
  | .mixinDefinition name parameters =>
    refine (keeps_mapM (fun parameter => Kept.ofParts line.site parameter.parts) parameters
      fun parameter _ => ?_).map_pure fun values => ofParts_mixinDefinition name values line.site
    -- only a default is an expression that is called for
    obtain ⟨name, _ | slot⟩ := parameter
    · exact keeps_pure rfl
    · exact (Services.keeps_fill slot).map_pure fun _ => rfl

/-- What a line puts into a document keeps. -/
def Outcome.kept : Outcome E → List (Kept E)
  | .node single => Node.forestKept [single]
  | .nodes all => Node.forestKept all
  | .branch alternative => Node.forestKept [alternative]

/-- A construct that is no import keeps only its expressions. -/
theorem Construct.kept_of_echoes {c : Construct E} (h : c.Echoes line) (site : Site) :
    c.kept site = Kept.ofParts site c.parts := by
  cases c with
  | fileImport => cases h
  | _ => rfl

/-- What a node keeps with nothing beneath it. -/
theorem Node.forestKept_bare (c : Construct E) (site : Site) :
    forestKept [⟨c, site, [], []⟩] = c.kept site := List.append_nil _

namespace Reading

theorem keeps_resolveParameter (parameter : Except Cause (Parameter Slot)) :
    Keeps (resolveParameter services.recorded line parameter) fun filled =>
      Kept.ofParts line.site filled.parts := by
  match parameter with
  | .error _ => exact keeps_throw
  | .ok ⟨_, none⟩ => exact keeps_pure rfl
  | .ok ⟨_, some slot⟩ => exact (Services.keeps_fill slot).map_pure fun _ => rfl

/-- An entry that is found as a stylesheet is kept by its path, and a plain style sheet is not. -/
theorem keeps_resolveEntry (entry : ImportEntry) :
    Keeps (resolveEntry services.recorded directories line entry) (Construct.kept line.site) := by
  match entry with
  | .css _ => exact keeps_pure rfl
  | .sheet name =>
    intro before c after hyields
    obtain ⟨path, middle, hfind, hyields⟩ := yields_bind.mp hyields
    have hkept := Services.keeps_find name before path middle hfind
    dsimp only at hkept
    -- the extension tells whether the call is kept, by the same test as it tells the construct
    split at hyields
    · rename_i hcss
      obtain ⟨rfl, rfl⟩ := yields_pure.mp hyields
      rw [if_pos hcss] at hkept
      exact hkept
    · rename_i hcss
      obtain ⟨rfl, rfl⟩ := yields_pure.mp hyields
      rw [if_neg hcss] at hkept
      exact hkept

/-- What a line puts into a document keeps what the services answered for the line. -/
theorem keeps_resolve {reading : Reading} {afterConditional : Bool}
    (hreading : reading.Echoes afterConditional line) :
    Keeps (reading.resolve services.recorded directories line) Outcome.kept := by
  match reading, hreading with
  | .construct c, hc =>
    intro before outcome after hyields
    obtain ⟨filled, _, hfilled, hyields⟩ := yields_bind.mp hyields
    obtain ⟨rfl, rfl⟩ := yields_pure.mp hyields
    -- nothing stands beneath the node yet, so it keeps just what its construct does
    show Gains _ _ (Node.forestKept [⟨filled, line.site, [], []⟩])
    rw [Node.forestKept_bare, Construct.kept_of_echoes (Construct.echoes_of_traverse hfilled hc)]
    exact Construct.keeps_traverse c _ _ _ hfilled
  | .definition name parameters, _ =>
    refine (keeps_mapM (fun parameter => Kept.ofParts line.site parameter.parts) parameters
      fun parameter _ => keeps_resolveParameter parameter).map_pure fun filled => ?_
    exact (Node.forestKept_bare _ _).trans (Construct.ofParts_mixinDefinition name filled line.site)
  | .imports entries, _ =>
    refine (keeps_mapM (Construct.kept line.site) entries
      fun entry _ => keeps_resolveEntry entry).map_pure fun constructs => ?_
    show Node.forestKept _ = _
    unfold Node.forestKept
    rw [Node.forestWalk_of_bare fun node hnode => ?_, List.flatMap_map]
    · rfl
    · obtain ⟨c, -, rfl⟩ := List.mem_map.mp hnode
      rfl
  | .branch none, _ => exact keeps_pure rfl
  | .branch (some slot), _ => exact (Services.keeps_fill slot).map_pure fun _ => rfl

end Reading

/-! ## Siblings -/

namespace Siblings

variable {root : Bool} {siblings added : Siblings E}

/-- What the nodes put next to each other so far keep. A rule that goes on keeps nothing. -/
def kept (siblings : Siblings E) : List (Kept E) := Node.forestKept siblings.placed.reverse

/-- Nodes that are placed keep their own behind what the others keep. -/
theorem kept_placed (nodes : List (Node E)) (pending : Option OpenRule) :
    kept ⟨nodes.reverse ++ siblings.placed, pending⟩ = siblings.kept ++ Node.forestKept nodes := by
  unfold kept
  rw [List.reverse_append, List.reverse_reverse, Node.forestKept_append]

/-- Whether an outcome can come behind siblings: a node has no branches yet, and a branch needs a
condition. -/
def Admits (siblings : Siblings E) : Outcome E → Prop
  | .node single => single.branches = []
  | .nodes _ => True
  | .branch _ => siblings.afterConditional = true

/-- What is put behind siblings keeps what it kept, behind what they keep. -/
theorem kept_add {outcome : Outcome E} (hadmits : siblings.Admits outcome)
    (h : siblings.add root line outcome = .ok added) : added.kept = siblings.kept ++ outcome.kept := by
  cases outcome with
  | node node =>
    cases hrule : node.construct.isRule with
    | false =>
      obtain ⟨-, rfl⟩ := add_node hrule h
      exact kept_placed [node] siblings.pending
    | true =>
      obtain ⟨construct, site, children, branches⟩ := node
      match construct, hrule with
      | .rule selectors, _ =>
        have hbranches : branches = [] := hadmits
        subst hbranches
        rcases add_rule rfl h with ⟨-, rfl⟩ | ⟨-, hempty, rfl⟩
        · -- the rule gets other selectors and another site, but keeps nothing of its own
          refine (kept_placed [_] none).trans ?_
          show _ = _ ++ Node.forestKept [_]
          rw [Node.forestKept_singleton, Node.forestKept_singleton]
          rfl
        · -- no nodes stand beneath a rule that goes on
          cases hempty
          exact (List.append_nil _).symm
  | nodes nodes =>
    obtain ⟨-, rfl⟩ := add_nodes h
    exact kept_placed nodes siblings.pending
  | branch branch =>
    -- a branch goes behind the branches of the newest node, which is the last one to keep anything
    obtain ⟨node, placed, hplaced, -, -, rfl⟩ := add_branch hadmits h
    unfold kept
    rw [hplaced, List.reverse_cons, List.reverse_cons, Node.forestKept_append, Node.forestKept_append,
      Node.forestKept_addBranch, List.append_assoc]
    rfl

end Siblings

/-! ## Assembling lines -/

namespace Assembly

variable {root : Bool} {siblings added : Siblings E} {before after : σ × List (Services.Call E)}

/-- The nodes beneath a line keep what was answered for them, behind what the line keeps. -/
theorem gains_of_completes {outcome completed : Outcome E}
    (hechoes : outcome.Echoes siblings.afterConditional line)
    (hcompletes : Completes services.recorded directories line before outcome completed after)
    (hbeneath : ∀ nested nodes before after,
      Yields (forest services.recorded directories false {} line.children) before nested after →
      nested.finish = .ok nodes → Gains before.2 after.2 (Node.forestKept nodes)) :
    siblings.Admits completed ∧
      ∃ beneath, Gains before.2 after.2 beneath ∧ completed.kept = outcome.kept ++ beneath := by
  cases hcompletes with
  | comment =>
    obtain ⟨c, rfl, -⟩ := hechoes
    exact ⟨rfl, [], .refl _, (List.append_nil _).symm⟩
  | @node _ nested nodes _ _ hnested hfinish =>
    obtain ⟨c, rfl, -⟩ := hechoes
    refine ⟨rfl, Node.forestKept nodes, hbeneath nested nodes before after hnested hfinish, ?_⟩
    show Node.forestKept [_] = Node.forestKept [_] ++ _
    rw [Node.forestKept_bare, Node.forestKept_singleton]
    exact congrArg _ (List.append_nil _)
  | nodes => exact ⟨trivial, [], .refl _, (List.append_nil _).symm⟩
  | @branch _ nested nodes _ hnested hfinish =>
    obtain ⟨hcond, test, rfl⟩ := hechoes
    refine ⟨hcond, Node.forestKept nodes, hbeneath nested nodes before after hnested hfinish, ?_⟩
    show Node.forestKept [_] = Node.forestKept [_] ++ _
    rw [Node.forestKept_bare, Node.forestKept_singleton]
    exact congrArg _ (List.append_nil _)

mutual

/-- One more line and those beneath it keep what was answered for them, behind what is there. -/
theorem keeps_line : ∀ (line : Line) {root : Bool} {siblings added : Siblings E}
    {before after : σ × List (Services.Call E)},
    Yields (Assembly.line services.recorded directories root siblings line) before added after →
    ∃ kept, Gains before.2 after.2 kept ∧ added.kept = siblings.kept ++ kept
  | ⟨text, depth, index, offset, filename, children⟩, _, siblings, _, _, _, h => by
    obtain ⟨reading, outcome, completed, middle, hread, hresolve, hcompletes, hadd⟩ := line_steps h
    have hreading := Reading.echoes_of_ofLine hread
    obtain ⟨hadmits, beneath, hgains, hkept⟩ := gains_of_completes
      (Reading.echoes_of_resolve hreading hresolve) hcompletes
      fun nested nodes before after hnested hfinish => by
        obtain ⟨-, rfl⟩ := Siblings.finish_eq_ok.mp hfinish
        obtain ⟨kept, hgains, hkept⟩ := keeps_forest children hnested
        rw [show Node.forestKept nested.placed.reverse = kept from hkept]
        exact hgains
    refine ⟨outcome.kept ++ beneath, (Reading.keeps_resolve hreading _ _ _ hresolve).trans hgains, ?_⟩
    rw [← hkept]
    exact Siblings.kept_add hadmits hadd

/-- The lines of a forest keep what was answered for them, behind what is there. -/
theorem keeps_forest : ∀ (trees : List Line) {root : Bool} {siblings added : Siblings E}
    {before after : σ × List (Services.Call E)},
    Yields (forest services.recorded directories root siblings trees) before added after →
    ∃ kept, Gains before.2 after.2 kept ∧ added.kept = siblings.kept ++ kept
  | [], _, siblings, _, before, after, h => by
    rw [forest] at h
    obtain ⟨rfl, rfl⟩ := yields_pure.mp h
    exact ⟨[], .refl _, (List.append_nil _).symm⟩
  | first :: rest, _, _, _, _, _, h => by
    obtain ⟨between, middle, hfirst, hrest⟩ := forest_cons h
    obtain ⟨front, hfront, hbetween⟩ := keeps_line first hfirst
    obtain ⟨back, hback, hadded⟩ := keeps_forest rest hrest
    refine ⟨front ++ back, hfront.trans hback, ?_⟩
    rw [hadded, hbetween, List.append_assoc]

end

end Assembly

/-! ## Documents -/

/-- How a call to read an expression was answered, with the site of the expression. -/
def Services.Call.answer? : Services.Call E → Option (Site × Except Text E)
  | .expression request answer => some (request.site, answer)
  | .sheet _ _ _ => none

/-- Services that give each expression the number of those before it, and find no stylesheet. -/
def Services.numbering : Services Nat Nat where
  parse _ := fun count => (.ok count, count + 1)
  locate name _ := fun count => (.error name, count)

/-- The answer that left an expression. -/
def Kept.answer? : Kept E → Option (Site × Except Text E)
  | .expression site e => some (site, .ok e)
  | .sheet _ => none

/-- Of a call that was not refused, the answer is what is kept. -/
theorem Services.Call.answer?_of_refusal? {call : Services.Call E} (h : call.refusal? = none) :
    call.answer? = call.kept?.bind Kept.answer? := by
  match call, h with
  | .expression _ (.ok _), _ => rfl
  | .sheet _ _ (.ok path), _ =>
    show none = (if cssExtension.isSuffixOf path then none else some (Kept.sheet path)).bind Kept.answer?
    split <;> rfl

namespace Node

/-- The expressions of a node itself, from left to right, with the site of the node. -/
def expressions (node : Node E) : List (Site × E) :=
  node.construct.parts.map fun part => (node.site, part.2)

theorem filterMap_answer?_kept (node : Node E) :
    node.kept.filterMap Kept.answer? = node.expressions.map fun (site, e) => (site, .ok e) := by
  obtain ⟨construct, site, children, branches⟩ := node
  cases construct with
  | fileImport => rfl
  | _ =>
    show (Kept.ofParts site _).filterMap Kept.answer? = _
    unfold Kept.ofParts expressions
    rw [List.filterMap_map, List.map_map, ← List.filterMap_eq_map]
    rfl

end Node

namespace Document

variable {services : Services σ E} {overrides : Overrides} {source : Text} {document : Document E}
  {state final : σ} {calls : List (Services.Call E)}

/-- A document keeps the answers to all calls, in their order. -/
theorem kept_of_parseWith
    (h : Yields (parseWith services.recorded overrides source) (state, []) document (final, calls)) :
    calls.filterMap Services.Call.kept? = Node.forestKept document.children := by
  obtain ⟨lines, trees, after, siblings, -, -, hforest, hfinish, -⟩ := steps_of_parseWith h
  obtain ⟨-, hchildren⟩ := Siblings.finish_eq_ok.mp hfinish
  obtain ⟨kept, hgains, hkept⟩ := Assembly.keeps_forest trees hforest
  rw [← hchildren]
  exact Eq.trans hgains hkept.symm

/-- Reading a document with noted calls answers all that its lines ask. -/
theorem runs_of_recorded
    (h : Yields (parseWith services.recorded overrides source) (state, []) document (final, calls)) :
    Runs services overrides.resolve.searchPath
      (WrittenLine.ofSource source overrides.resolve.firstLine overrides.filename)
      (askings overrides source) state calls (.ok document.children : Except SyntaxError _) final := by
  obtain ⟨result, final', calls', hruns, -, hnoted⟩ :=
    runs_of_parseWith services overrides source state
  unfold Yields at h
  rw [h] at hnoted
  obtain ⟨hclose, hrest⟩ := Prod.mk.inj hnoted
  obtain ⟨rfl, rfl⟩ := Prod.mk.inj hrest
  obtain ⟨nodes, rfl, rfl⟩ := map_eq_ok.mp (mapError_eq_ok.mp hclose.symm)
  exact hruns

/-- A document can be read with noted calls just as well. -/
theorem recorded_of_parseWith
    (h : Yields (parseWith services overrides source) state document final) :
    ∃ calls,
      Yields (parseWith services.recorded overrides source) (state, []) document (final, calls) := by
  obtain ⟨result, _, calls, -, hplain, hnoted⟩ := runs_of_parseWith services overrides source state
  unfold Yields at h
  rw [h] at hplain
  obtain ⟨hclose, rfl⟩ := Prod.mk.inj hplain
  rw [← hclose] at hnoted
  exact ⟨calls, hnoted⟩

/-- The expressions of a document in its order: those of a node from left to right, then those of
the nodes beneath it, of its branches, and of the next node beside it. -/
def expressions (document : Document E) : List (Site × E) :=
  (Node.forestWalk document.children).flatMap Node.expressions

/-- A document that is read takes all expressions from the answers to its calls: in the order of the
calls the answers are its expressions in its order, each at the site for which it was asked. -/
theorem answers_of_parseWith
    (h : Yields (parseWith services overrides source) state document final) :
    ∃ calls,
      Yields (parseWith services.recorded overrides source) (state, []) document (final, calls) ∧
      calls.filterMap Services.Call.answer? =
        document.expressions.map fun (site, e) => (site, .ok e) := by
  obtain ⟨calls, hnoted⟩ := recorded_of_parseWith h
  obtain ⟨hserved, -⟩ := (runs_of_recorded hnoted).all_served
  refine ⟨calls, hnoted, ?_⟩
  calc calls.filterMap Services.Call.answer?
      = calls.filterMap fun call => call.kept?.bind Kept.answer? :=
        List.filterMap_congr fun call hcall => Services.Call.answer?_of_refusal? (hserved call hcall)
    _ = (Node.forestKept document.children).filterMap Kept.answer? := by
        rw [← kept_of_parseWith hnoted, List.filterMap_filterMap]
    _ = document.expressions.map fun (site, e) => (site, .ok e) := by
        unfold Node.forestKept expressions
        rw [List.filterMap_flatMap, List.map_flatMap]
        exact List.flatMap_congr fun node _ => node.filterMap_answer?_kept

/-- A source with all kinds of expressions. -/
def everyPart : Text :=
  "=m(!a, !b = 1, !c = 2)\n  :x= p\n!v = 3\n+m(4, 5)\n" ++
  "@if a\n  +n(b)\n@else if c\n  d= e\n@else\n  @debug f\n" ++
  "@for !i from g to h\n  @while j\n    !w ||= k\na,\nb\n  :y= l"

/-- The theorem for all kinds of expressions, where they are numbered in the order of the calls. -/
theorem answers_of_every_part :
    ∃ document calls,
      Yields (parseWith .numbering {} everyPart) 0 document 16 ∧
      Yields (parseWith Services.numbering.recorded {} everyPart) (0, []) document (16, calls) ∧
      calls.filterMap Services.Call.answer? =
        document.expressions.map (fun (site, e) => (site, .ok e)) ∧
      document.expressions.map (fun (site, e) => (site.line, e)) =
        [(1, 0), (1, 1), (2, 2), (3, 3), (4, 4), (4, 5), (5, 6), (6, 7), (7, 8), (8, 9), (10, 10),
          (11, 11), (11, 12), (12, 13), (13, 14), (16, 15)] := by
  have hread : ((parseWith .numbering {} everyPart).outcome 0).1.map (fun document =>
      document.expressions.map fun (site, e) => (site.line, e)) =
      .ok [(1, 0), (1, 1), (2, 2), (3, 3), (4, 4), (4, 5), (5, 6), (6, 7), (7, 8), (8, 9), (10, 10),
          (11, 11), (11, 12), (12, 13), (13, 14), (16, 15)] := by
    decide +kernel
  have hcount : ((parseWith .numbering {} everyPart).outcome 0).2 = 16 := by decide +kernel
  obtain ⟨document, hok, hexpressions⟩ := map_eq_ok.mp hread
  have hyields : Yields (parseWith .numbering {} everyPart) 0 document 16 := Prod.ext hok hcount
  obtain ⟨calls, hnoted, hanswers⟩ := answers_of_parseWith hyields
  exact ⟨document, calls, hyields, hnoted, hanswers, hexpressions⟩

end Document

end Stylesheet
