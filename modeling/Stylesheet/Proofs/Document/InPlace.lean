import Stylesheet.Proofs.Document.Alternatives
import Stylesheet.Proofs.Document.Siblings

/-!
# Assembling in place

The same assembly with levels that are changed in place. What a line has changed by the time it
fails stays changed, and a branch is attached to the condition in front of it as soon as what stands
beneath the branch has been read.

- `Draft`: the levels that are open and the state of the services; `Draft.classify`, `Draft.line`
  and `Draft.forest` read lines in place.
- `Draft.Aside`: a computation leaves the levels that are open as they are, also where it fails.
- `Draft.Mirrors`: a computation does in place what another one does with the innermost level;
  `Draft.forest_mirrors` says so of a forest of lines.
- `Assembly.GivesBranch`: the branch that a line and the lines beneath it say.
- `Draft.classify_alternative`: all that the line of an alternative branch changes.
-/

namespace Stylesheet

open Parsing

/-- A document that is being put together: the levels that are open, the innermost first, and the
state of the services. -/
structure Draft (σ E : Type) where
  levels : List (Siblings E)
  services : σ

namespace Draft

variable {σ E α β : Type}

/-! ## Steps -/

/-- The innermost level. -/
def innermost (draft : Draft σ E) : Siblings E := draft.levels.head?.getD {}

/-- Lets the services do something. -/
def consult (p : Parsing σ α) : Parsing (Draft σ E) α := fun draft =>
  ((p.outcome draft.services).1, { draft with services := (p.outcome draft.services).2 })

/-- Opens a level. -/
def enter : Parsing (Draft σ E) Unit :=
  modify fun draft => { draft with levels := {} :: draft.levels }

/-- Changes the innermost level, unless this fails. -/
def change (f : Siblings E → Except SyntaxError (Siblings E)) : Parsing (Draft σ E) Unit := do
  let draft ← get
  let siblings ← f draft.innermost
  set { draft with levels := siblings :: draft.levels.tail }

/-- Closes the innermost level and gives its nodes. -/
def leave : Parsing (Draft σ E) (List (Node E)) := do
  let draft ← get
  let nodes ← draft.innermost.finish
  set { draft with levels := draft.levels.tail }
  return nodes

/-- The nodes that lines put into a level of their own. -/
def level (nested : Parsing (Draft σ E) Unit) : Parsing (Draft σ E) (List (Node E)) := do
  enter
  nested
  leave

/-! ## Lines -/

/-- Gives what a line says the nodes beneath the line. -/
def complete (nested : Parsing (Draft σ E) Unit) : Outcome E → Parsing (Draft σ E) (Outcome E)
  | .node node =>
    if node.construct.isComment then return .node node
    else do
      let nodes ← level nested
      return .node { node with children := nodes }
  | .nodes nodes => return .nodes nodes
  | .branch branch => do
    let nodes ← level nested
    return .branch { branch with children := nodes }

variable (services : Services σ E) (directories : List Text)

/-- Reads a line and what stands beneath it. -/
def read (nested : Parsing (Draft σ E) Unit) (line : Line) : Parsing (Draft σ E) (Outcome E) := do
  let draft ← get
  let reading ← Reading.ofLine draft.innermost.afterConditional line
  let outcome ← consult (reading.resolve services directories line)
  complete nested outcome

/-- Reads a line. A branch is attached to the condition in front of it at once, and nothing is left
to be put behind the others. -/
def classify (nested : Parsing (Draft σ E) Unit) (line : Line) :
    Parsing (Draft σ E) (Option (Outcome E)) := do
  match ← read services directories nested line with
  | .branch branch => do
    change fun siblings => .ok (siblings.addBranch branch)
    return none
  | outcome => return some outcome

mutual

/-- Puts a line and all lines beneath it into the innermost level. -/
def line (root : Bool) : Line → Parsing (Draft σ E) Unit
  | ⟨text, depth, index, offset, filename, children⟩ => do
    let line : Line := ⟨text, depth, index, offset, filename, children⟩
    match ← classify services directories (forest false children) line with
    | some outcome => change fun siblings => siblings.add root line outcome
    | none => do
      let draft ← get
      draft.innermost.closed

/-- Puts the lines of a forest into the innermost level, one after the other. -/
def forest (root : Bool) : List Line → Parsing (Draft σ E) Unit
  | [] => return ()
  | first :: rest => do
    line root first
    forest root rest

end

/-! ## Steps that leave the levels as they are -/

/-- One computation does what the other does, and leaves the levels that are open as they are. Where
it fails, others may be open inside them. -/
def Aside (levels : List (Siblings E)) (p : Parsing (Draft σ E) α) (q : Parsing σ α) : Prop :=
  ∀ state,
    (∃ a next, q.outcome state = (.ok a, next) ∧
      p.outcome ⟨levels, state⟩ = (.ok a, ⟨levels, next⟩)) ∨
    ∃ e next inner, q.outcome state = (.error e, next) ∧
      p.outcome ⟨levels, state⟩ = (.error e, ⟨inner ++ levels, next⟩)

/-- One computation does in place what the other does with the innermost level, and leaves the
levels further out as they are. -/
def Mirrors (p : Parsing (Draft σ E) Unit) (q : Siblings E → Parsing σ (Siblings E)) : Prop :=
  ∀ siblings outer state,
    (∃ added next, (q siblings).outcome state = (.ok added, next) ∧
      p.outcome ⟨siblings :: outer, state⟩ = (.ok (), ⟨added :: outer, next⟩)) ∨
    ∃ e next inner, (q siblings).outcome state = (.error e, next) ∧
      p.outcome ⟨siblings :: outer, state⟩ = (.error e, ⟨inner ++ outer, next⟩)

variable {services directories} {levels : List (Siblings E)} {siblings : Siblings E}
  {outer : List (Siblings E)} {state : σ}

theorem aside_pure (a : α) : Aside levels (pure a : Parsing (Draft σ E) α) (pure a) :=
  fun state => .inl ⟨a, state, rfl, rfl⟩

theorem aside_lift (q : Except SyntaxError α) :
    Aside levels (liftM q : Parsing (Draft σ E) α) (liftM q : Parsing σ α) := by
  intro state
  cases q with
  | ok a => exact .inl ⟨a, state, rfl, rfl⟩
  | error e => exact .inr ⟨e, state, [], rfl, rfl⟩

/-- The services see nothing of the levels. -/
theorem aside_consult (q : Parsing σ α) : Aside levels (consult q : Parsing (Draft σ E) α) q := by
  intro state
  have hconsult : (consult q : Parsing (Draft σ E) α).outcome ⟨levels, state⟩ =
      ((q.outcome state).1, ⟨levels, (q.outcome state).2⟩) := rfl
  rw [hconsult]
  obtain ⟨result, next⟩ := q.outcome state
  cases result with
  | ok a => exact .inl ⟨a, next, rfl, rfl⟩
  | error e => exact .inr ⟨e, next, [], rfl, rfl⟩

theorem Aside.bind {p : Parsing (Draft σ E) α} {q : Parsing σ α} {f : α → Parsing (Draft σ E) β}
    {g : α → Parsing σ β} (hp : Aside levels p q) (hf : ∀ a, Aside levels (f a) (g a)) :
    Aside levels (p >>= f) (q >>= g) := by
  intro state
  rcases hp state with ⟨a, next, hq, hp⟩ | ⟨e, next, inner, hq, hp⟩
  · rw [outcome_bind, hq, outcome_bind, hp]
    exact hf a next
  · refine .inr ⟨e, next, inner, ?_, ?_⟩
    · rw [outcome_bind, hq]
    · rw [outcome_bind, hp]

/-- A level that is closed gives its nodes, or breaks off as its siblings do. -/
theorem outcome_leave (siblings : Siblings E) (outer : List (Siblings E)) (state : σ) :
    (∃ nodes, siblings.finish = .ok nodes ∧
      leave.outcome (⟨siblings :: outer, state⟩ : Draft σ E) = (.ok nodes, ⟨outer, state⟩)) ∨
    ∃ e, siblings.finish = .error e ∧
      leave.outcome (⟨siblings :: outer, state⟩ : Draft σ E) =
        (.error e, ⟨siblings :: outer, state⟩) := by
  have hleave : leave.outcome (⟨siblings :: outer, state⟩ : Draft σ E) =
      (do
        let nodes ← siblings.finish
        set (⟨outer, state⟩ : Draft σ E)
        return nodes : Parsing (Draft σ E) _).outcome ⟨siblings :: outer, state⟩ := rfl
  rw [hleave]
  cases siblings.finish with
  | ok nodes => exact .inl ⟨nodes, rfl, rfl⟩
  | error e => exact .inr ⟨e, rfl, rfl⟩

/-- A level of its own leaves the others as they are. -/
theorem aside_level {nested : Parsing (Draft σ E) Unit} {q : Siblings E → Parsing σ (Siblings E)}
    (h : Mirrors nested q) :
    Aside levels (level nested) (do
      let siblings ← q {}
      siblings.finish) := by
  intro state
  have henter : (level nested).outcome ⟨levels, state⟩ =
      (nested >>= fun _ => leave).outcome ⟨{} :: levels, state⟩ := rfl
  rw [henter, outcome_bind, outcome_bind]
  rcases h {} levels state with ⟨added, next, hq, hp⟩ | ⟨e, next, inner, hq, hp⟩
  · -- the level is closed again, or fails to and stays open inside the others
    rw [hq, hp]
    dsimp only
    rcases outcome_leave added levels next with ⟨nodes, hfinish, hleave⟩ | ⟨e, hfinish, hleave⟩
    · rw [hleave, hfinish]
      exact .inl ⟨nodes, next, rfl, rfl⟩
    · rw [hleave, hfinish]
      exact .inr ⟨e, next, [added], rfl, rfl⟩
  · rw [hq, hp]
    exact .inr ⟨e, next, inner, rfl, rfl⟩

/-- So does reading a line and what stands beneath it. -/
theorem aside_read {nested : Parsing (Draft σ E) Unit} {line : Line}
    (h : Mirrors nested fun siblings =>
      Assembly.forest services directories false siblings line.children) :
    Aside (siblings :: outer) (read services directories nested line)
      (Assembly.saying services directories siblings.afterConditional line) := by
  have hcomplete : ∀ outcome, Aside (siblings :: outer) (complete nested outcome)
      (Assembly.complete services directories line outcome) := by
    intro outcome
    cases outcome with
    | node node =>
      unfold complete Assembly.complete
      dsimp only
      split
      · exact aside_pure _
      · exact (aside_level h).bind fun nodes => aside_pure _
    | nodes nodes => exact aside_pure _
    | branch branch => exact (aside_level h).bind fun nodes => aside_pure _
  -- the three steps of reading a line, each of which leaves the levels alone
  have hread : Aside (siblings :: outer)
      (do
        let reading ← Reading.ofLine siblings.afterConditional line
        let outcome ← consult (reading.resolve services directories line)
        complete nested outcome)
      (Assembly.saying services directories siblings.afterConditional line) :=
    (aside_lift _).bind fun reading => (aside_consult _).bind hcomplete
  intro state
  exact hread state

/-! ## Lines in place -/

/-- A line either fails, and leaves its siblings and all levels further out as they are, or it is a
branch and is attached to the newest node, or it changes nothing and is still to be put behind the
others. -/
theorem outcome_classify {nested : Parsing (Draft σ E) Unit} {line : Line}
    (h : Mirrors nested fun siblings =>
      Assembly.forest services directories false siblings line.children)
    (siblings : Siblings E) (outer : List (Siblings E)) (state : σ) :
    let said := (Assembly.saying services directories siblings.afterConditional line).outcome state
    let classified := (classify services directories nested line).outcome ⟨siblings :: outer, state⟩
    (∃ outcome next, said = (.ok outcome, next) ∧ outcome.isBranch = false ∧
      classified = (.ok (some outcome), ⟨siblings :: outer, next⟩)) ∨
    (∃ branch next, said = (.ok (.branch branch), next) ∧
      classified = (.ok none, ⟨siblings.addBranch branch :: outer, next⟩)) ∨
    ∃ e next inner, said = (.error e, next) ∧
      classified = (.error e, ⟨inner ++ siblings :: outer, next⟩) := by
  intro said classified
  have hclassified : classified = _ := outcome_bind _ _ _
  rcases aside_read h state with ⟨outcome, next, hsaid, hread⟩ | ⟨e, next, inner, hsaid, hread⟩
  · rw [hread] at hclassified
    cases outcome with
    | node node => exact .inl ⟨_, next, hsaid, rfl, hclassified⟩
    | nodes nodes => exact .inl ⟨_, next, hsaid, rfl, hclassified⟩
    | branch branch => exact .inr (.inl ⟨branch, next, hsaid, hclassified⟩)
  · rw [hread] at hclassified
    exact .inr (.inr ⟨e, next, inner, hsaid, hclassified⟩)

/-- Whether a rule goes on is not changed by a branch. -/
theorem closed_addBranch (branch : Node E) : (siblings.addBranch branch).closed = siblings.closed := by
  unfold Siblings.addBranch
  cases siblings.placed <;> rfl

/-- A change of the innermost level succeeds or fails as it does on the siblings alone. -/
theorem outcome_change (f : Siblings E → Except SyntaxError (Siblings E)) (siblings : Siblings E)
    (outer : List (Siblings E)) (state : σ) :
    (∃ added, f siblings = .ok added ∧
      (change f).outcome (⟨siblings :: outer, state⟩ : Draft σ E) = (.ok (), ⟨added :: outer, state⟩)) ∨
    ∃ e, f siblings = .error e ∧
      (change f).outcome (⟨siblings :: outer, state⟩ : Draft σ E) =
        (.error e, ⟨siblings :: outer, state⟩) := by
  have hchange : (change f).outcome (⟨siblings :: outer, state⟩ : Draft σ E) =
      (do
        let added ← f siblings
        set (⟨added :: outer, state⟩ : Draft σ E) : Parsing (Draft σ E) Unit).outcome
          ⟨siblings :: outer, state⟩ := rfl
  rw [hchange]
  cases f siblings with
  | ok added => exact .inl ⟨added, rfl, rfl⟩
  | error e => exact .inr ⟨e, rfl, rfl⟩

/-- Nothing may be put behind a rule that goes on but another rule. -/
theorem outcome_closed (siblings : Siblings E) (outer : List (Siblings E)) (state : σ) :
    (do
      let draft ← get
      draft.innermost.closed : Parsing (Draft σ E) Unit).outcome ⟨siblings :: outer, state⟩ =
        (siblings.closed, ⟨siblings :: outer, state⟩) := rfl

/-- A line does in place what it does with the siblings of its level, if the lines beneath it do. -/
theorem mirrors_line {line : Line}
    (h : Mirrors (Draft.forest services directories false line.children) fun siblings =>
      Assembly.forest services directories false siblings line.children) (root : Bool) :
    Mirrors (Draft.line services directories root line) fun siblings =>
      Assembly.line services directories root siblings line := by
  intro siblings outer state
  have hplace : Draft.line services directories root line = (do
      match ← classify services directories (Draft.forest services directories false line.children)
        line with
      | some outcome => change fun siblings => siblings.add root line outcome
      | none => do
        let draft ← get
        draft.innermost.closed) := by
    obtain ⟨text, depth, index, offset, filename, children⟩ := line
    rw [Draft.line]
  dsimp only
  rw [hplace, Assembly.line_eq, outcome_bind, outcome_bind]
  rcases outcome_classify h siblings outer state with
    ⟨outcome, next, hsaid, -, hclassified⟩ | ⟨branch, next, hsaid, hclassified⟩ |
      ⟨e, next, inner, hsaid, hclassified⟩
  · rw [hsaid, hclassified]
    dsimp only
    -- what is no branch is added once it is complete, just as without the levels
    rcases outcome_change (fun siblings => siblings.add root line outcome) siblings outer next with
      ⟨added, hadd, hchange⟩ | ⟨e, hadd, hchange⟩
    · rw [hchange]
      exact .inl ⟨added, next, congrArg (·, next) hadd, rfl⟩
    · rw [hchange]
      exact .inr ⟨e, next, [siblings], congrArg (·, next) hadd, rfl⟩
  · -- the branch is attached before it is seen that a rule goes on
    rw [hsaid, hclassified]
    dsimp only
    rw [outcome_closed, closed_addBranch]
    have hadd : siblings.add root line (.branch branch) = (do
      siblings.closed
      return siblings.addBranch branch) := rfl
    cases hresult : siblings.closed with
    | ok u =>
      rw [hresult] at hadd
      exact .inl ⟨_, next, congrArg (·, next) hadd, rfl⟩
    | error e =>
      rw [hresult] at hadd
      exact .inr ⟨e, next, [siblings.addBranch branch], congrArg (·, next) hadd, rfl⟩
  · rw [hsaid, hclassified]
    exact .inr ⟨e, next, inner ++ [siblings], rfl, by simp⟩

/-- So do lines one after the other. -/
theorem mirrors_cons {root : Bool} {first : Line} {rest : List Line}
    (hfirst : Mirrors (Draft.line services directories root first) fun siblings =>
      Assembly.line services directories root siblings first)
    (hrest : Mirrors (Draft.forest services directories root rest) fun siblings =>
      Assembly.forest services directories root siblings rest) :
    Mirrors (Draft.forest services directories root (first :: rest)) fun siblings =>
      Assembly.forest services directories root siblings (first :: rest) := by
  intro siblings outer state
  have hforest : Assembly.forest services directories root siblings (first :: rest) =
      Assembly.line services directories root siblings first >>= fun added =>
        Assembly.forest services directories root added rest := by rw [Assembly.forest]
  dsimp only
  rw [Draft.forest, hforest, outcome_bind, outcome_bind]
  rcases hfirst siblings outer state with ⟨added, next, hline, hplace⟩ | ⟨e, next, inner, hline, hplace⟩
  · rw [hline, hplace]
    exact hrest added outer next
  · rw [hline, hplace]
    exact .inr ⟨e, next, inner, rfl, rfl⟩

mutual

/-- A line puts in place what it puts behind its siblings. -/
theorem line_mirrors (root : Bool) : ∀ line : Line,
    Mirrors (Draft.line services directories root line) fun siblings =>
      Assembly.line services directories root siblings line
  | ⟨text, depth, index, offset, filename, children⟩ =>
    @mirrors_line _ _ _ _ ⟨text, depth, index, offset, filename, children⟩
      (forest_mirrors false children) root

/-- The lines of a forest put in place what they put behind their siblings. -/
theorem forest_mirrors (root : Bool) : ∀ lines : List Line,
    Mirrors (Draft.forest services directories root lines) fun siblings =>
      Assembly.forest services directories root siblings lines
  | [] => by
    intro siblings outer state
    rw [Draft.forest]
    refine .inl ⟨siblings, state, ?_, rfl⟩
    show (Assembly.forest services directories root siblings []).outcome state = _
    rw [Assembly.forest]
    rfl
  | first :: rest => mirrors_cons (line_mirrors root first) (forest_mirrors root rest)

end

end Draft

/-! ## Alternative branches in place -/

namespace Assembly

variable {services : Services σ E} {directories : List Text} {line : Line} {branch : Node E}
  {state next : σ}

/-- The branch that a line says: with the test of the line, and with the nodes of the lines beneath
it. -/
def GivesBranch (services : Services σ E) (directories : List Text) (line : Line) (state : σ)
    (branch : Node E) (next : σ) : Prop :=
  ∃ test filled nodes middle,
    Reading.ofAlternative true line (Directive.ofText line.text) = .ok (.branch test) ∧
    Yields ((Reading.branch test).resolve services directories line) state
      (.branch ⟨.conditional filled, line.site, [], []⟩) middle ∧
    Yields (level services directories false line.children) middle nodes next ∧
    branch = ⟨.conditional filled, line.site, nodes, []⟩

theorem givesBranch_of_saying {afterConditional : Bool}
    (h : Yields (saying services directories afterConditional line) state (.branch branch) next) :
    afterConditional = true ∧ GivesBranch services directories line state branch next := by
  have halternative := isBranch_of_saying h
  obtain ⟨reading, outcome, middle, hread, hresolve, hcompletes⟩ := yields_saying.mp h
  have hechoes := Reading.echoes_of_resolve (Reading.echoes_of_ofLine hread) hresolve
  have hkind := Reading.isBranch_of_resolve hresolve
  cases hcompletes with
  | branch hnested hfinish =>
    obtain ⟨rfl, filled, rfl⟩ := hechoes
    rw [Reading.ofLine_of_isAlternative halternative.symm] at hread
    cases reading with
    | branch test =>
      exact ⟨rfl, test, filled, _, middle, hread, hresolve,
        yields_level.mpr ⟨_, hnested, hfinish⟩, rfl⟩
    | construct | definition | imports => cases hkind

theorem saying_of_givesBranch (halternative : Line.isAlternative line.text = true)
    (h : GivesBranch services directories line state branch next) :
    Yields (saying services directories true line) state (.branch branch) next := by
  obtain ⟨test, filled, nodes, middle, hread, hresolve, hlevel, rfl⟩ := h
  obtain ⟨nested, hnested, hfinish⟩ := yields_level.mp hlevel
  rw [← Reading.ofLine_of_isAlternative halternative] at hread
  exact yields_saying.mpr ⟨_, _, middle, hread, hresolve, .branch hnested hfinish⟩

end Assembly

namespace Draft

variable {services : Services σ E} {directories : List Text} {siblings : Siblings E} {line : Line}
  {node branch : Node E} {older : List (Node E)} {state next : σ}

/-- Reading the line of an alternative branch either fails, and leaves its siblings and all levels
further out as they are, or the newest of its siblings is a condition, and all that changes is that
one branch is attached behind those that the condition has: the branch that the line and the lines
beneath it say. -/
theorem classify_alternative (h : Line.isAlternative line.text = true)
    (siblings : Siblings E) (outer : List (Siblings E)) (state : σ) :
    let classified := (classify services directories
      (Draft.forest services directories false line.children) line).outcome ⟨siblings :: outer, state⟩
    (∃ e next inner, classified = (.error e, ⟨inner ++ siblings :: outer, next⟩)) ∨
    ∃ node older branch next, siblings.placed = node :: older ∧ node.isConditional = true ∧
      Assembly.GivesBranch services directories line state branch next ∧
      classified = (.ok none,
        ⟨{ siblings with placed := node.addBranch branch :: older } :: outer, next⟩) := by
  intro classified
  rcases outcome_classify (forest_mirrors false line.children) siblings outer state with
    ⟨outcome, next, hsaid, hbranch, -⟩ | ⟨branch, next, hsaid, hclassified⟩ |
      ⟨e, next, inner, -, hclassified⟩
  · -- the line of a branch gives nothing else that could be put behind the siblings
    have hkind := Assembly.isBranch_of_saying hsaid
    rw [hbranch, h] at hkind
    cases hkind
  · obtain ⟨hcond, hgives⟩ := Assembly.givesBranch_of_saying hsaid
    unfold Siblings.afterConditional at hcond
    unfold Siblings.addBranch at hclassified
    cases hplaced : siblings.placed with
    | nil =>
      rw [hplaced] at hcond
      cases hcond
    | cons node older =>
      rw [hplaced] at hcond hclassified
      exact .inr ⟨node, older, branch, next, rfl, hcond, hgives, hclassified⟩
  · exact .inl ⟨e, next, inner, hclassified⟩

/-- Behind a condition, a branch is attached whenever the line and the lines beneath it say one. -/
theorem classify_of_givesBranch (halternative : Line.isAlternative line.text = true)
    (hplaced : siblings.placed = node :: older) (hnode : node.isConditional = true)
    (h : Assembly.GivesBranch services directories line state branch next)
    (outer : List (Siblings E)) :
    (classify services directories (Draft.forest services directories false line.children)
        line).outcome ⟨siblings :: outer, state⟩ =
      (.ok none, ⟨{ siblings with placed := node.addBranch branch :: older } :: outer, next⟩) := by
  have hcond : siblings.afterConditional = true := by
    unfold Siblings.afterConditional
    rw [hplaced]
    exact hnode
  have hsaid : (Assembly.saying services directories siblings.afterConditional line).outcome state =
      (.ok (.branch branch), next) := by
    rw [hcond]
    exact Assembly.saying_of_givesBranch halternative h
  rcases outcome_classify (forest_mirrors false line.children) siblings outer state with
    ⟨outcome, _, hother, hbranch, -⟩ | ⟨_, _, hother, hclassified⟩ | ⟨_, _, _, hother, -⟩
  · cases hsaid.symm.trans hother
    cases hbranch
  · cases hsaid.symm.trans hother
    rw [hclassified, Siblings.addBranch, hplaced]
  · cases hsaid.symm.trans hother

end Draft

end Stylesheet
