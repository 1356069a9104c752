import Mathlib.Data.List.ModifyLast
import Stylesheet.Proofs.Document.Siblings

/-!
# Rules that go on

A rule whose selector ends in a comma goes on with the next line, which must be a rule as well.

- `Sibling.Dangles`: the rule at an index goes on, but cannot; `Sibling.Blames` tells the line to
  blame.
- `Sibling.Merges`: what the lines of a level give once rules that go on are put together.
- `Sibling.Breaks`: the same for a level that breaks off, with the line that is blamed.
- `Assembly.outcome_ending`: a level breaks off, or it gives the nodes of what is put together.
- `Assembly.level_continued`: a level breaks off at the first rule that goes on and cannot.
-/

namespace Stylesheet

open Parsing

variable {σ E : Type}

/-! ## Putting lines together -/

namespace Outcome

/-- The selectors of a rule. -/
def selectors : Outcome E → List Text
  | .node ⟨.rule selectors, _, _, _⟩ => selectors
  | _ => []

/-- Puts what a line gives behind other nodes. A branch is put behind those of the last node. -/
def appendTo (behind : List (Node E)) : Outcome E → List (Node E)
  | .node single => behind ++ [single]
  | .nodes all => behind ++ all
  | .branch alternative => behind.modifyLast (·.addBranch alternative)

end Outcome

namespace Sibling

variable {given rest : List (Sibling E)} {first sibling : Sibling E} {i j : Nat} {n : Int}

/-- A rule that goes on with the next line and has nothing beneath it. -/
structure Waits (sibling : Sibling E) : Prop where
  goesOn : sibling.outcome.goesOn = true
  children : sibling.line.children = []

/-- The rule at an index goes on, but has lines beneath it, or no rule comes next. -/
def Dangles (given : List (Sibling E)) (i : Nat) : Prop :=
  ∃ sibling, given[i]? = some sibling ∧ sibling.outcome.goesOn = true ∧
    (sibling.line.children ≠ [] ∨ ∀ next, given[i + 1]? = some next → next.outcome.isRule = false)

/-- A run of rules that go on ends at an index. It does not go on in front of its first rule. -/
def EndsRun (given run : List (Sibling E)) (i : Nat) : Prop :=
  ∃ front back, given = front ++ run ++ back ∧ front.length + run.length = i + 1 ∧
    (∀ sibling ∈ run, sibling.outcome.goesOn = true) ∧
    ∀ sibling, front.getLast? = some sibling → sibling.outcome.goesOn = false

/-- The line to blame for a rule that goes on but cannot: its own, if it has lines beneath it, and
else that of the first rule in its run. -/
def Blames (given : List (Sibling E)) (i : Nat) (n : Int) : Prop :=
  ∃ sibling, given[i]? = some sibling ∧
    ((sibling.line.children ≠ [] ∧ n = sibling.line.site.line) ∨
      (sibling.line.children = [] ∧
        ∃ first run, EndsRun given (first :: run) i ∧ n = first.line.site.line))

/-- What the lines of a level give once each run of rules that go on is put together with the rule
that ends it: one rule with all selectors, which stands where the run starts, and beneath which
stands what stands beneath its last line. -/
inductive Merges : List (Sibling E) → List (Outcome E) → Prop where
  | nil : Merges [] []
  | single {sibling : Sibling E} {rest : List (Sibling E)} {merged : List (Outcome E)}
    (hends : sibling.outcome.goesOn = false) (h : Merges rest merged) :
    Merges (sibling :: rest) (sibling.outcome :: merged)
  | run {first last : Sibling E} {run rest : List (Sibling E)} {node : Node E}
    {selectors : List Text} {merged : List (Outcome E)}
    (hrun : ∀ sibling ∈ first :: run, sibling.Waits) (hlast : last.outcome = .node node)
    (hrule : node.construct = .rule selectors) (hends : last.outcome.goesOn = false)
    (h : Merges rest merged) :
    Merges (first :: run ++ last :: rest)
      (.node
        { node with
          construct := .rule ((first :: run).flatMap (·.outcome.selectors) ++ selectors)
          site := first.line.site } :: merged)

/-- The level breaks off, and a line is blamed. -/
inductive Breaks : List (Sibling E) → Int → Prop where
  | nested {run rest : List (Sibling E)} {sibling : Sibling E}
    (hrun : ∀ waiting ∈ run, waiting.Waits) (hgoes : sibling.outcome.goesOn = true)
    (hchildren : sibling.line.children ≠ []) :
    Breaks (run ++ sibling :: rest) sibling.line.site.line
  | dangling {first : Sibling E} {run rest : List (Sibling E)}
    (hrun : ∀ waiting ∈ first :: run, waiting.Waits)
    (hrest : ∀ next, rest.head? = some next → next.outcome.isRule = false) :
    Breaks (first :: run ++ rest) first.line.site.line
  | behind {run rest : List (Sibling E)} {sibling : Sibling E} {n : Int}
    (hrun : ∀ waiting ∈ run, waiting.Waits) (hends : sibling.outcome.goesOn = false)
    (hrule : run = [] ∨ sibling.outcome.isRule = true) (h : Breaks rest n) :
    Breaks (run ++ sibling :: rest) n

/-! ## The first rule that dangles -/

/-- No rule dangles that waits for a rule. -/
theorem Waits.not_dangles {waiting next : Sibling E} (hwaiting : given[i]? = some waiting)
    (hnext : given[i + 1]? = some next) (h : waiting.Waits) (hrule : next.outcome.isRule = true) :
    ¬Dangles given i := by
  rintro ⟨sibling, hsibling, -, hchildren | hlast⟩
  · cases hwaiting.symm.trans hsibling
    exact hchildren h.children
  · rw [hlast next hnext] at hrule
    cases hrule

theorem getElem?_run {run : List (Sibling E)} (h : i < run.length) :
    (run ++ rest)[i]? = some run[i] := by
  rw [List.getElem?_append_left h, List.getElem?_eq_getElem h]

/-- Inside a run of rules that wait, none dangles. -/
theorem not_dangles_run {run : List (Sibling E)} (hrun : ∀ waiting ∈ run, waiting.Waits)
    (hi : i + 1 < run.length) : ¬Dangles (run ++ rest) i := by
  have hlt : i < run.length := by omega
  have hwaiting := hrun _ (List.getElem_mem hlt)
  have hnext := hrun _ (List.getElem_mem hi)
  exact Waits.not_dangles (getElem?_run hlt) (getElem?_run hi) hwaiting
    (Outcome.isRule_of_goesOn hnext.goesOn)

/-- A run of rules that wait for a rule has none that dangles. -/
theorem not_dangles_waits {run : List (Sibling E)} (hrun : ∀ waiting ∈ run, waiting.Waits)
    (hrule : sibling.outcome.isRule = true) (hi : i < run.length) :
    ¬Dangles (run ++ sibling :: rest) i := by
  rcases Nat.lt_or_ge (i + 1) run.length with hlt | hge
  · exact not_dangles_run hrun hlt
  · have hend : i + 1 = run.length := by omega
    refine Waits.not_dangles (getElem?_run hi) ?_ (hrun _ (List.getElem_mem hi)) hrule
    rw [hend, List.getElem?_append_right (Nat.le_refl _), Nat.sub_self]
    rfl

/-- Behind lines that do not go on, the same rules dangle. -/
theorem dangles_append {front : List (Sibling E)} :
    Dangles (front ++ rest) (front.length + i) ↔ Dangles rest i := by
  unfold Dangles
  rw [List.getElem?_append_right (by omega), Nat.add_assoc, List.getElem?_append_right (by omega),
    Nat.add_sub_cancel_left, Nat.add_sub_cancel_left]

/-- In a run that is put together nothing dangles, so what dangles stands behind it. -/
theorem dangles_iff_behind {run : List (Sibling E)} (hrun : ∀ waiting ∈ run, waiting.Waits)
    (hends : sibling.outcome.goesOn = false) (hrule : run = [] ∨ sibling.outcome.isRule = true) :
    Dangles (run ++ sibling :: rest) i ↔ ∃ j, i = (run ++ [sibling]).length + j ∧ Dangles rest j := by
  have happend : run ++ sibling :: rest = (run ++ [sibling]) ++ rest := by simp
  constructor
  · intro h
    -- the index lies in the run, at its end, or behind
    rcases Nat.lt_trichotomy i run.length with hlt | heq | hgt
    · rcases hrule with rfl | hrule
      · exact absurd hlt (Nat.not_lt_zero _)
      · exact absurd h (not_dangles_waits hrun hrule hlt)
    · obtain ⟨other, hother, hgoes, -⟩ := h
      rw [heq, List.getElem?_append_right (Nat.le_refl _), Nat.sub_self] at hother
      cases hother
      rw [hends] at hgoes
      cases hgoes
    · obtain ⟨j, rfl⟩ : ∃ j, i = (run ++ [sibling]).length + j :=
        ⟨i - (run.length + 1), by rw [List.length_append, List.length_singleton]; omega⟩
      rw [happend] at h
      exact ⟨j, rfl, dangles_append.mp h⟩
  · rintro ⟨j, rfl, h⟩
    rw [happend]
    exact dangles_append.mpr h

/-- The line that is blamed stays the same behind lines that do not go on. -/
theorem Blames.append {front : List (Sibling E)} (h : Blames rest i n)
    (hfront : ∀ sibling, front.getLast? = some sibling → sibling.outcome.goesOn = false) :
    Blames (front ++ rest) (front.length + i) n := by
  obtain ⟨sibling, hsibling, hblame⟩ := h
  refine ⟨sibling, ?_, hblame.imp_right ?_⟩
  · rw [List.getElem?_append_right (by omega), Nat.add_sub_cancel_left]
    exact hsibling
  · rintro ⟨hchildren, first, run, ⟨before, back, rfl, hlength, hrun, hbefore⟩, hn⟩
    refine ⟨hchildren, first, run, ⟨front ++ before, back, by simp, ?_, hrun, ?_⟩, hn⟩
    · rw [List.length_append]
      omega
    · intro last hlast
      rw [List.getLast?_append] at hlast
      -- the run that is blamed may start right behind the lines in front, which must not go on into
      -- it
      cases hempty : before.getLast? with
      | none =>
        rw [hempty] at hlast
        exact hfront last hlast
      | some other =>
        rw [hempty] at hlast
        cases hlast
        exact hbefore _ hempty

/-- A level that breaks off does so at the first rule that dangles. -/
theorem Breaks.exists_first (h : Breaks given n) :
    ∃ i, Dangles given i ∧ (∀ j < i, ¬Dangles given j) ∧ Blames given i n := by
  -- the level breaks off at a rule with lines beneath it, behind a run, or further on
  induction h with
  | @nested run rest sibling hrun hgoes hchildren =>
    have hat : (run ++ sibling :: rest)[run.length]? = some sibling := by
      rw [List.getElem?_append_right (Nat.le_refl _), Nat.sub_self]
      rfl
    exact ⟨run.length, ⟨sibling, hat, hgoes, .inl hchildren⟩,
      fun j hj => not_dangles_waits hrun (Outcome.isRule_of_goesOn hgoes) hj,
      sibling, hat, .inl ⟨hchildren, rfl⟩⟩
  | @dangling first run rest hrun hrest =>
    have hlt : run.length < (first :: run).length := Nat.lt_succ_self _
    have hat : (first :: run ++ rest)[run.length]? = some (first :: run)[run.length] :=
      getElem?_run hlt
    have hlast := hrun _ (List.getElem_mem hlt)
    refine ⟨run.length, ⟨_, hat, hlast.goesOn, .inr fun next hnext => hrest next ?_⟩,
      fun j hj => not_dangles_run hrun (Nat.succ_lt_succ hj), _, hat, .inr ⟨hlast.children, ?_⟩⟩
    · rw [← List.length_cons (a := first), List.getElem?_append_right (Nat.le_refl _), Nat.sub_self,
        ← List.head?_eq_getElem?] at hnext
      exact hnext
    · exact ⟨first, run, ⟨[], rest, rfl, Nat.zero_add _, fun waiting hmem => (hrun waiting hmem).goesOn,
        nofun⟩, rfl⟩
  | @behind run rest sibling n hrun hends hrule _ ih =>
    obtain ⟨i, hdangles, hfirst, hblames⟩ := ih
    refine ⟨_, (dangles_iff_behind hrun hends hrule).mpr ⟨i, rfl, hdangles⟩, ?_, ?_⟩
    · intro j hj hother
      obtain ⟨k, rfl, hk⟩ := (dangles_iff_behind hrun hends hrule).mp hother
      exact hfirst k (by omega) hk
    · have hfront : ∀ last, (run ++ [sibling]).getLast? = some last → last.outcome.goesOn = false := by
        intro last hlast
        rw [List.getLast?_concat] at hlast
        cases hlast
        exact hends
      have hbehind := hblames.append hfront
      rwa [List.append_assoc] at hbehind

/-- Where all lines can be put together, no rule dangles. -/
theorem Merges.not_dangles {merged : List (Outcome E)} (h : Merges given merged) (i : Nat) :
    ¬Dangles given i := by
  induction h generalizing i with
  | nil =>
    rintro ⟨sibling, hsibling, -⟩
    cases hsibling
  | single hends _ ih =>
    intro hdangles
    obtain ⟨j, -, hj⟩ :=
      (dangles_iff_behind (fun _ hmem => absurd hmem List.not_mem_nil) hends (.inl rfl)).mp hdangles
    exact ih j hj
  | @run _ last _ _ _ _ _ hrun hlast hrule hends _ ih =>
    intro hdangles
    have hisRule : last.outcome.isRule = true := by
      rw [hlast, Outcome.isRule, hrule]
      rfl
    obtain ⟨j, -, hj⟩ := (dangles_iff_behind hrun hends (.inr hisRule)).mp hdangles
    exact ih j hj

end Sibling

/-! ## Putting lines behind a run -/

namespace Siblings

/-- The siblings behind nodes and a run of rules that wait. -/
def behind (nodes : List (Node E)) (run : List (Sibling E)) : Siblings E where
  placed := nodes.reverse
  pending := run.head?.map fun first => ⟨run.flatMap (·.outcome.selectors), first.line.site⟩

variable {services : Services σ E} {directories : List Text} {root afterConditional : Bool}
  {siblings : Siblings E} {line : Line} {nodes : List (Node E)} {run : List (Sibling E)}
  {sibling first : Sibling E} {node : Node E} {selectors : List Text} {state next : σ}

/-- A rule that is added ends the rule that goes on, or goes on with it. -/
theorem addRule_eq :
    siblings.addRule line selectors node =
      if !OpenRule.goesOn selectors then
        .ok
          { placed :=
              { node with
                construct := .rule (siblings.extended selectors node.site).selectors
                site := (siblings.extended selectors node.site).site } :: siblings.placed
            pending := none }
      else if node.children.isEmpty then
        .ok { siblings with pending := some (siblings.extended selectors node.site) }
      else .error (line.fault .danglingComma) := rfl

/-- Behind a run, a rule takes on the selectors of the run and the site of its first line. -/
theorem extended_behind (site : Site) :
    (behind nodes run).extended selectors site =
      ⟨run.flatMap (·.outcome.selectors) ++ selectors, (run.head?.map (·.line.site)).getD site⟩ := by
  cases run <;> rfl

theorem exists_of_isRule {outcome : Outcome E} (h : outcome.isRule = true) :
    ∃ node selectors, outcome = .node node ∧ node.construct = .rule selectors ∧
      outcome.selectors = selectors ∧ outcome.goesOn = OpenRule.goesOn selectors := by
  match outcome, h with
  | .node ⟨.rule selectors, site, children, branches⟩, _ =>
    exact ⟨⟨.rule selectors, site, children, branches⟩, selectors, rfl, rfl, rfl, rfl⟩

/-- The nodes beneath a rule are those of the lines beneath it. -/
theorem children_of_rule
    (h : Assembly.Says services directories root afterConditional state sibling next)
    (hnode : sibling.outcome = .node node) (hrule : node.construct = .rule selectors) :
    node.children = [] ↔ sibling.line.children = [] := by
  obtain ⟨-, -, -, hlevel⟩ := h.node hnode
  obtain ⟨middle, hlevel⟩ := hlevel (by rw [hrule]; rfl)
  exact Assembly.level_eq_nil_iff hlevel

/-- A rule that goes on joins the run, unless it has lines beneath it. -/
theorem add_goesOn (nodes : List (Node E)) (run : List (Sibling E))
    (h : Assembly.Says services directories root afterConditional state sibling next)
    (hgoes : sibling.outcome.goesOn = true) :
    (behind nodes run).add root sibling.line sibling.outcome =
      if sibling.line.children = [] then .ok (behind nodes (run ++ [sibling]))
      else .error (.atLine .danglingComma sibling.line.site.line) := by
  obtain ⟨node, selectors, hnode, hrule, hselectors, heq⟩ :=
    exists_of_isRule (Outcome.isRule_of_goesOn hgoes)
  have hwaits : (!OpenRule.goesOn selectors) = false := by rw [← heq, hgoes]; rfl
  have hsite : node.site = sibling.line.site := (h.node hnode).2.1
  rw [hnode, addRule_of_construct hrule, addRule_eq, hwaits, extended_behind, hsite]
  by_cases hchildren : sibling.line.children = []
  · have hempty : node.children.isEmpty = true :=
      List.isEmpty_iff.mpr ((children_of_rule h hnode hrule).mpr hchildren)
    rw [if_pos hchildren, hempty, ← hselectors]
    cases run with
    | nil => simp [behind]
    | cons first run => simp [behind]
  · have hempty : ¬node.children.isEmpty = true := fun hempty =>
      hchildren ((children_of_rule h hnode hrule).mp (List.isEmpty_iff.mp hempty))
    rw [if_neg hchildren, if_neg hempty]
    rfl

theorem not_goesOn_of_rule (hnode : sibling.outcome = .node node)
    (hrule : node.construct = .rule selectors) (hends : sibling.outcome.goesOn = false) :
    (!OpenRule.goesOn selectors) = true := by
  rw [hnode, Outcome.goesOn, hrule] at hends
  rw [show OpenRule.goesOn selectors = false from hends]
  rfl

/-- A rule that does not go on ends the run. -/
theorem add_ends (root : Bool) (nodes : List (Node E)) (first : Sibling E) (run : List (Sibling E))
    (hnode : sibling.outcome = .node node) (hrule : node.construct = .rule selectors)
    (hends : sibling.outcome.goesOn = false) :
    (behind nodes (first :: run)).add root sibling.line sibling.outcome =
      .ok (behind (nodes ++
        [{ node with
            construct := .rule ((first :: run).flatMap (·.outcome.selectors) ++ selectors)
            site := first.line.site }]) []) := by
  rw [hnode, addRule_of_construct hrule, addRule_eq, not_goesOn_of_rule hnode hrule hends,
    extended_behind]
  simp [behind]

/-- A line that is no rule may not follow a run. -/
theorem add_behind_run (nodes : List (Node E)) (first : Sibling E) (run : List (Sibling E))
    {outcome : Outcome E} (hrule : outcome.isRule = false) :
    (behind nodes (first :: run)).add root line outcome =
      .error (.atLine .danglingComma first.line.site.line) := by
  match outcome, hrule with
  | .node node, hrule =>
    unfold add
    dsimp only
    split
    · rename_i hconstruct
      rw [Outcome.isRule, hconstruct] at hrule
      cases hrule
    · rfl
  | .nodes _, _ | .branch _, _ => rfl

/-- Behind no run, a line that does not go on puts behind the others what it gives. -/
theorem add_behind_nodes (nodes : List (Node E)) (hends : sibling.outcome.goesOn = false)
    (hstand : sibling.outcome.MayStand root) :
    (behind nodes []).add root sibling.line sibling.outcome =
      .ok (behind (sibling.outcome.appendTo nodes) []) := by
  cases houtcome : sibling.outcome with
  | node node =>
    rw [houtcome] at hstand
    cases hrule : node.construct.isRule with
    | true =>
      obtain ⟨selectors, hselectors⟩ := Construct.exists_rule hrule
      rw [addRule_of_construct hselectors, addRule_eq, not_goesOn_of_rule houtcome hselectors hends,
        extended_behind]
      obtain ⟨_, site, children, branches⟩ := node
      cases hselectors
      simp [behind, Outcome.appendTo]
    | false =>
      unfold add
      dsimp only
      split
      · rename_i hconstruct
        rw [hconstruct] at hrule
        cases hrule
      · show (behind nodes []).place root sibling.line node = _
        rw [place_of_mayStand hstand]
        simp [behind, Outcome.appendTo]
  | nodes all =>
    rw [houtcome] at hstand
    show all.foldlM _ (behind nodes []) = _
    rw [placeAll_of_mayStand hstand]
    simp [behind, Outcome.appendTo]
  | branch branch =>
    show Except.ok ((behind nodes []).addBranch branch) = _
    -- without a node in front there is nothing a branch could be attached to, and nothing changes
    rcases List.eq_nil_or_concat nodes with rfl | ⟨front, last, rfl⟩
    · rfl
    · simp [behind, addBranch, Outcome.appendTo, List.modifyLast_concat]

end Siblings

/-! ## Assembling a level -/

namespace Assembly

open Sibling

variable {services : Services σ E} {directories : List Text} {root : Bool} {siblings : Siblings E}
  {added : Siblings E} {nodes : List (Node E)} {given run : List (Sibling E)} {sibling : Sibling E}
  {first : Line} {lines : List Line} {state middle next : σ}

theorem ending_cons :
    ending services directories root siblings (first :: lines) = (do
      let siblings ← Assembly.line services directories root siblings first
      ending services directories root siblings lines) := by
  simp only [ending, forest, bind_assoc]

theorem outcome_ending_of_ok
    (h : Says services directories root siblings.afterConditional state sibling middle)
    (hadd : siblings.add root sibling.line sibling.outcome = .ok added) :
    (ending services directories root siblings (sibling.line :: lines)).outcome state =
      (ending services directories root added lines).outcome middle := by
  have hsaid : Parsing.outcome _ _ = _ := h.said
  rw [ending_cons, line_eq, bind_assoc, outcome_bind, hsaid]
  dsimp only
  rw [hadd]
  rfl

/-- Where a line cannot be added, the level ends with its error, and the lines behind it are not
read. -/
theorem outcome_ending_of_error {e : SyntaxError}
    (h : Says services directories root siblings.afterConditional state sibling middle)
    (hadd : siblings.add root sibling.line sibling.outcome = .error e) :
    (ending services directories root siblings (sibling.line :: lines)).outcome state =
      (.error e, middle) := by
  have hsaid : Parsing.outcome _ _ = _ := h.said
  rw [ending_cons, line_eq, bind_assoc, outcome_bind, hsaid]
  dsimp only
  rw [hadd]
  rfl

/-- Behind a run of rules that wait, a level breaks off, or it gives the nodes of what is put
together. -/
theorem outcome_ending (hrun : ∀ waiting ∈ run, waiting.Waits)
    (h : Gives services directories root (Siblings.behind nodes run).afterConditional state given
      next) :
    (∃ n after, Breaks (run ++ given) n ∧
      (ending services directories root (.behind nodes run) (given.map Sibling.line)).outcome state =
        (.error (.atLine .danglingComma n), after)) ∨
    ∃ merged, Merges (run ++ given) merged ∧
      (ending services directories root (.behind nodes run) (given.map Sibling.line)).outcome state =
        (.ok (merged.foldl Outcome.appendTo nodes), next) := by
  induction given generalizing run nodes state with
  | nil =>
    cases h
    cases run with
    | nil =>
      refine .inr ⟨[], .nil, ?_⟩
      show (Except.ok nodes.reverse.reverse, _) = _
      rw [List.reverse_reverse]
      rfl
    | cons first run => exact .inl ⟨_, _, .dangling hrun nofun, rfl⟩
  | cons sibling given ih =>
    cases h with
    | @cons _ _ _ _ middle _ hsays hrest =>
    rw [List.map_cons]
    have hnone : ∀ waiting ∈ ([] : List (Sibling E)), waiting.Waits := nofun
    by_cases hgoes : sibling.outcome.goesOn = true
    · -- the run gets longer by one rule, or breaks off at the lines beneath that rule
      have hadd := Siblings.add_goesOn nodes run hsays hgoes
      by_cases hchildren : sibling.line.children = []
      · rw [if_pos hchildren] at hadd
        rw [outcome_ending_of_ok hsays hadd]
        rw [← Siblings.afterConditional_add hadd] at hrest
        have hwaits : ∀ waiting ∈ run ++ [sibling], waiting.Waits := by
          intro waiting hmem
          rcases List.mem_append.mp hmem with hmem | hmem
          · exact hrun waiting hmem
          · rw [List.mem_singleton.mp hmem]
            exact ⟨hgoes, hchildren⟩
        have hbehind := ih hwaits hrest
        rwa [List.append_assoc] at hbehind
      · rw [if_neg hchildren] at hadd
        exact .inl ⟨_, middle, .nested hrun hgoes hchildren, outcome_ending_of_error hsays hadd⟩
    · have hends : sibling.outcome.goesOn = false := by simpa using hgoes
      cases run with
      | nil =>
        have hadd := Siblings.add_behind_nodes nodes hends hsays.stands
        rw [outcome_ending_of_ok hsays hadd]
        rw [← Siblings.afterConditional_add hadd] at hrest
        rcases ih hnone hrest with ⟨n, after, hbreaks, herror⟩ | ⟨merged, hmerges, hyields⟩
        · exact .inl ⟨n, after, .behind hnone hends (.inl rfl) hbreaks, herror⟩
        · exact .inr ⟨_, .single hends hmerges, hyields⟩
      | cons first run =>
        cases hrule : sibling.outcome.isRule with
        | true =>
          -- the rule takes in the selectors of the run, and the next run starts behind it
          obtain ⟨node, selectors, hnode, hconstruct, -, -⟩ := Siblings.exists_of_isRule hrule
          have hadd := Siblings.add_ends root nodes first run hnode hconstruct hends
          rw [outcome_ending_of_ok hsays hadd]
          rw [← Siblings.afterConditional_add hadd] at hrest
          rcases ih hnone hrest with ⟨n, after, hbreaks, herror⟩ | ⟨merged, hmerges, hyields⟩
          · exact .inl ⟨n, after, .behind hrun hends (.inr hrule) hbreaks, herror⟩
          · exact .inr ⟨_, .run hrun hnode hconstruct hends hmerges, hyields⟩
        | false =>
          refine .inl ⟨_, middle, .dangling hrun ?_,
            outcome_ending_of_error hsays (Siblings.add_behind_run nodes first run hrule)⟩
          intro next hnext
          cases hnext
          exact hrule

/-- A level of lines that are all read and assembled in their places breaks off just if a rule goes
on and cannot. It does so at the first such rule, and blames that rule's line, if there are lines
beneath it, and else the line on which its run starts. Otherwise each run is put together with the
rule that ends it, and all else stays as it is, in its order. -/
theorem level_continued
    (h : Gives services directories root false state given next) :
    ((∃ n, ((level services directories root (given.map Sibling.line)).outcome state).1 =
        .error (.atLine .danglingComma n)) ↔ ∃ i, Dangles given i) ∧
    (∀ i, Dangles given i → (∀ j < i, ¬Dangles given j) →
      ∃ n, Blames given i n ∧
        ((level services directories root (given.map Sibling.line)).outcome state).1 =
          .error (.atLine .danglingComma n)) ∧
    ((∀ i, ¬Dangles given i) →
      ∃ merged, Merges given merged ∧
        Yields (level services directories root (given.map Sibling.line)) state
          (merged.foldl Outcome.appendTo []) next) := by
  have hnone : ∀ waiting ∈ ([] : List (Sibling E)), waiting.Waits := nofun
  rcases @outcome_ending _ _ _ _ _ [] _ _ _ _ hnone h with
    ⟨n, after, hbreaks, herror⟩ | ⟨merged, hmerges, hyields⟩
  · obtain ⟨i, hdangles, hfirst, hblames⟩ := hbreaks.exists_first
    have hraised := congrArg Prod.fst herror
    refine ⟨⟨fun _ => ⟨i, hdangles⟩, fun _ => ⟨n, hraised⟩⟩, fun k hk hfirst' => ?_,
      fun hall => absurd hdangles (hall i)⟩
    -- the level breaks off once only, so the first rule that dangles is the one it breaks off at
    have heq : k = i := by
      rcases Nat.lt_trichotomy k i with hlt | heq | hgt
      · exact absurd hk (hfirst k hlt)
      · exact heq
      · exact absurd hdangles (hfirst' i hgt)
    rw [heq]
    exact ⟨n, hblames, hraised⟩
  · have hdangles := hmerges.not_dangles
    refine ⟨⟨?_, fun ⟨i, hi⟩ => absurd hi (hdangles i)⟩, fun i hi _ => absurd hi (hdangles i),
      fun _ => ⟨merged, hmerges, hyields⟩⟩
    rintro ⟨n, herror⟩
    have hok : ((level services directories root (given.map Sibling.line)).outcome state).1 = .ok _ :=
      congrArg Prod.fst hyields
    rw [herror] at hok
    cases hok

/-- A rule goes on over two lines, and another one goes on behind it but has no line to go on
with. -/
theorem level_of_selectors :
    let plain (text : Text) (index : Int) (children : List Line) : Line :=
      ⟨text, 0, index, 0, none, children⟩
    let lines := [plain "a," 1 [], plain "b" 2 [plain ":c d" 3 []]]
    let level := level (Services.standard ⟨['/'], .empty⟩) [] false
    (∃ nodes, Yields (level lines) () nodes ()) ∧
      ∃ n, ((level (lines ++ [plain "e," 4 []])).outcome ()).1 = .error (.atLine .danglingComma n) := by
  intro plain lines level
  let services : Services Unit Expression := .standard ⟨['/'], .empty⟩
  let rule (text : Text) (index : Int) (children : List (Node Expression)) : Outcome Expression :=
    .node ⟨.rule [text], ⟨index, none⟩, children, []⟩
  let value : Node Expression := ⟨.attribute ['c'] (.literal ['d']) .prefixed, ⟨3, none⟩, [], []⟩
  let first : Sibling Expression := ⟨plain "a," 1 [], rule "a," 1 []⟩
  let second : Sibling Expression := ⟨plain "b" 2 [plain ":c d" 3 []], rule "b" 2 [value]⟩
  let third : Sibling Expression := ⟨plain "e," 4 [], rule "e," 4 []⟩
  have hfirst : Says services [] false false () first () := ⟨rfl, nofun⟩
  have hsecond : Says services [] false false () second () := ⟨rfl, nofun⟩
  have hthird : Says services [] false false () third () := ⟨rfl, nofun⟩
  have hwaits : ∀ waiting ∈ [first], waiting.Waits := by
    intro waiting hmem
    rw [List.mem_singleton.mp hmem]
    exact ⟨rfl, rfl⟩
  constructor
  · have hmerges : Merges ([first] ++ second :: []) _ := .run hwaits rfl rfl rfl .nil
    obtain ⟨merged, -, hyields⟩ :=
      (level_continued (.cons hfirst (.cons hsecond .nil))).2.2 hmerges.not_dangles
    exact ⟨_, hyields⟩
  · have hgives : Gives services [] false false () [first, second, third] () :=
      .cons hfirst (.cons hsecond (.cons hthird .nil))
    exact (level_continued hgives).1.mpr ⟨2, third, rfl, rfl, .inr nofun⟩

end Assembly

end Stylesheet
