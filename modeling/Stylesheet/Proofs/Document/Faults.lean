import Stylesheet.Proofs.Document.Assembly
import Stylesheet.Proofs.Line.Written

/-!
# A fault is found on a line

Whatever is wrong with a document is wrong on one of its lines that are not blank: where the line is
cut from the source, nested, read, or put behind its siblings.

- `SyntaxError.On`: an error on one of the given lines, whose file is not named yet.
- `Reading.on_of_ofLine`: a line that cannot be read is at fault itself, or the first one beneath
  it.
- `Siblings.Anchored`: a rule that goes on has started on one of the lines. `Assembly.anchored_line`
  says that this stays true, so that an outcome which cannot be added is on a line (`on_of_add`).
- `Line.on_of_ofSource`, `Line.on_of_nest`: so are lines that cannot be cut or nested.
-/

namespace Stylesheet

open Parsing

variable {σ E : Type} {lines : List WrittenLine}

/-- The error is on one of the lines, and does not name a file. -/
def SyntaxError.On (lines : List WrittenLine) (e : SyntaxError) : Prop :=
  e.site.filename = none ∧ ∃ line ∈ lines, line.site.line = e.site.line

namespace Line

variable {line nested : Line} {rest : List Line} {e : SyntaxError}

/-- An error on a line of the source is one of the source. -/
theorem on_fault (h : line.written ∈ lines) (cause : Cause) : (line.fault cause).On lines :=
  ⟨rfl, line.written, h, rfl⟩

/-- A line is among the lines of its own tree. -/
theorem written_mem (h : ∀ each ∈ line.preorder, each.written ∈ lines) : line.written ∈ lines := by
  rw [preorder_eq] at h
  exact h { line with children := [] } List.mem_cons_self

/-- So is the first line beneath it. -/
theorem written_mem_of_children (h : ∀ each ∈ line.preorder, each.written ∈ lines)
    (hchildren : line.children = nested :: rest) : nested.written ∈ lines := by
  rw [preorder_eq, hchildren, forestPreorder] at h
  refine written_mem fun each heach => h each ?_
  exact List.mem_cons_of_mem _ (List.mem_append_left _ heach)

/-- Where nothing may stand beneath a line, the first line beneath it is at fault. -/
theorem on_of_forbidNesting {parent : Childless} (hlines : ∀ each ∈ line.preorder, each.written ∈ lines)
    (h : line.forbidNesting parent = .error e) : e.On lines := by
  unfold forbidNesting at h
  split at h
  · cases h
  · rename_i hchildren
    cases h
    exact on_fault (written_mem_of_children hlines hchildren) _

end Line

/-! ## Reading a line -/

namespace Reading

variable {line : Line} {e : SyntaxError} {afterConditional : Bool}

/-- A line that gives no construct is at fault. -/
theorem on_ofConstruct? {cause : Cause} {c? : Option (Construct Slot)} (hline : line.written ∈ lines)
    (h : ofConstruct? line cause c? = .error e) : e.On lines := by
  cases c? with
  | some c => cases h
  | none =>
    cases h
    exact Line.on_fault hline cause

/-- So is a directive without the value that it needs. -/
theorem on_of_required {directive : Directive} (hline : line.written ∈ lines)
    (h : required line directive = .error e) : e.On lines := by
  unfold required at h
  split at h
  · cases h
    exact Line.on_fault hline _
  · cases h
    exact Line.on_fault hline _
  · cases h

variable (hlines : ∀ each ∈ line.preorder, each.written ∈ lines)
include hlines

theorem on_ofPlain (h : ofPlain line = .error e) : e.On lines := by
  unfold ofPlain at h
  split at h
  · exact on_ofConstruct? (Line.written_mem hlines) h
  · cases h

theorem on_ofAttribute (h : ofAttribute line = .error e) : e.On lines := by
  unfold ofAttribute at h
  split at h
  · cases h
  · exact on_ofConstruct? (Line.written_mem hlines) h

theorem on_ofBinding (h : ofBinding line = .error e) : e.On lines := by
  rcases bind_eq_error.mp h with h | ⟨_, -, h⟩
  · exact Line.on_of_forbidNesting hlines h
  · exact on_ofConstruct? (Line.written_mem hlines) h

theorem on_ofDefinition (h : ofDefinition line = .error e) : e.On lines := by
  unfold ofDefinition at h
  split at h
  · cases h
  · cases h
    exact Line.on_fault (Line.written_mem hlines) _

/-- An include is at fault itself or has a line beneath it. -/
theorem on_ofInclude (h : ofInclude line = .error e) : e.On lines := by
  unfold ofInclude at h
  split at h
  · cases h
  · rcases bind_eq_error.mp h with h | ⟨_, -, h⟩
    · exact Line.on_of_forbidNesting hlines h
    · split at h
      · cases h
        exact Line.on_fault (Line.written_mem hlines) _
      · split at h
        · cases h
          exact Line.on_fault (Line.written_mem hlines) _
        · cases h

/-- So is an import. -/
theorem on_ofImport {directive : Directive} (h : ofImport line directive = .error e) : e.On lines := by
  unfold ofImport at h
  split at h
  · cases h
    exact Line.on_fault (Line.written_mem hlines) _
  · cases h
    exact Line.on_fault (Line.written_mem hlines) _
  · rcases bind_eq_error.mp h with h | ⟨_, -, h⟩
    · exact Line.on_of_forbidNesting hlines h
    · cases h

/-- An alternative is at fault where it stands. -/
theorem on_ofAlternative {directive : Directive}
    (h : ofAlternative afterConditional line directive = .error e) : e.On lines := by
  unfold ofAlternative at h
  split at h
  · cases h
    exact Line.on_fault (Line.written_mem hlines) _
  · split at h
    · cases h
    · cases h
    · split at h
      · cases h
        exact Line.on_fault (Line.written_mem hlines) _
      · cases h

theorem on_ofDirective (h : ofDirective afterConditional line = .error e) : e.On lines := by
  have hline := Line.written_mem hlines
  unfold ofDirective at h
  dsimp only at h
  -- one case for each keyword; a line beneath is at fault only where none may stand
  split at h
  · cases h
  · exact on_ofImport hlines h
  · exact on_ofAlternative hlines h
  · split at h
    · cases h
    · cases h
      exact Line.on_fault hline _
  · rcases bind_eq_error.mp h with h | ⟨_, -, h⟩
    · exact on_of_required hline h
    · cases h
  · rcases bind_eq_error.mp h with h | ⟨_, -, h⟩
    · exact on_of_required hline h
    · cases h
  · rcases bind_eq_error.mp h with h | ⟨_, -, h⟩
    · exact on_of_required hline h
    · rcases bind_eq_error.mp h with h | ⟨_, -, h⟩
      · exact Line.on_of_forbidNesting hlines h
      · cases h

/-- A line that cannot be read is at fault itself, or the first line beneath it is. -/
theorem on_of_ofLine (h : ofLine afterConditional line = .error e) : e.On lines := by
  unfold ofLine at h
  split at h
  · rename_i mark _
    match mark, h with
    | .binding, h => exact on_ofBinding hlines h
    | .mixinInclude, h => exact on_ofInclude hlines h
    | .attribute, h => exact on_ofAttribute hlines h
    | .definition, h => exact on_ofDefinition hlines h
    | .directive, h => exact on_ofDirective hlines h
    | .escape, h => cases h
    | .comment, h =>
      -- a comment takes anything
      have h : ofComment line = .error e := h
      unfold ofComment at h
      split at h <;> cases h
  · exact on_ofPlain hlines h

end Reading

/-! ## Adding to siblings -/

/-- The rule that goes on, if one does, has started on one of the lines. -/
def Siblings.Anchored (lines : List WrittenLine) (siblings : Siblings E) : Prop :=
  ∀ rule, siblings.pending = some rule → ∃ line ∈ lines, line.site.line = rule.site.line

namespace Siblings

variable {root : Bool} {siblings added : Siblings E} {line : Line} {e : SyntaxError}

/-- Nothing goes on at the start. -/
theorem anchored_empty : Anchored lines ({} : Siblings E) := by
  intro rule h
  cases h

theorem anchored_of_pending (h : siblings.pending = none) : siblings.Anchored lines := by
  intro rule hrule
  rw [h] at hrule
  cases hrule

/-- A rule that goes on where it may not is at fault where it started. -/
theorem on_of_closed (hanchored : siblings.Anchored lines) (h : siblings.closed = .error e) :
    e.On lines := by
  unfold closed at h
  split at h
  · cases h
  · rename_i rule hpending
    cases h
    exact ⟨rfl, hanchored rule hpending⟩

/-- So it is at the end of its siblings. -/
theorem on_of_finish (hanchored : siblings.Anchored lines) (h : siblings.finish = .error e) :
    e.On lines := by
  rcases bind_eq_error.mp h with h | ⟨_, -, h⟩
  · exact on_of_closed hanchored h
  · cases h

/-- A node in a place where it may not stand is at fault on its line. -/
theorem on_of_place {node : Node E} (hline : line.written ∈ lines)
    (h : siblings.place root line node = .error e) : e.On lines := by
  unfold place at h
  split at h
  · cases h
    exact Line.on_fault hline _
  · cases h

/-- So are all nodes of an import. -/
theorem on_of_placeAll {nodes : List (Node E)} (hline : line.written ∈ lines)
    (h : nodes.foldlM (fun siblings node => siblings.place root line node) siblings = .error e) :
    e.On lines := by
  -- by induction on the nodes, all of which come from the one line
  induction nodes generalizing siblings with
  | nil => cases h
  | cons node nodes ih =>
    rw [List.foldlM_cons] at h
    rcases bind_eq_error.mp h with h | ⟨middle, -, h⟩
    · exact on_of_place hline h
    · exact ih h

/-- An outcome that cannot be added is at fault on its line, or the rule in front of it is. -/
theorem on_of_add {outcome : Outcome E} (hanchored : siblings.Anchored lines)
    (hline : line.written ∈ lines) (h : siblings.add root line outcome = .error e) : e.On lines := by
  -- everything but a rule first asks that no rule goes on, which may be at fault instead
  match outcome, h with
  | .node node, h =>
    unfold add at h
    dsimp only at h
    split at h
    · unfold addRule at h
      dsimp only at h
      split at h
      · cases h
      · split at h
        · cases h
        · cases h
          exact Line.on_fault hline _
    · rcases bind_eq_error.mp h with h | ⟨_, -, h⟩
      · exact on_of_closed hanchored h
      · exact on_of_place hline h
  | .nodes nodes, h =>
    rcases bind_eq_error.mp h with h | ⟨_, -, h⟩
    · exact on_of_closed hanchored h
    · exact on_of_placeAll hline h
  | .branch branch, h =>
    rcases bind_eq_error.mp h with h | ⟨_, -, h⟩
    · exact on_of_closed hanchored h
    · cases h

/-- A rule that goes on behind a line has started there or in front of it. -/
theorem anchored_of_add {outcome : Outcome E}
    (hanchored : siblings.Anchored lines) (hline : line.written ∈ lines)
    (houtcome : ∀ node, outcome = .node node → node.site = line.site)
    (h : siblings.add root line outcome = .ok added) : added.Anchored lines := by
  -- only a rule leaves one that goes on; it keeps the site at which the first of its selectors
  -- stands
  match outcome, houtcome, h with
  | .node node, houtcome, h =>
    cases hrule : node.construct.isRule with
    | true =>
      match hconstruct : node.construct, hrule with
      | .rule selectors, _ =>
        rcases add_rule hconstruct h with ⟨-, rfl⟩ | ⟨-, -, rfl⟩
        · exact anchored_of_pending rfl
        · intro rule hgoes
          cases hgoes
          unfold extended
          cases hpending : siblings.pending with
          | none => exact ⟨line.written, hline, by rw [houtcome node rfl]; rfl⟩
          | some rule => exact hanchored rule hpending
    | false =>
      obtain ⟨hpending, rfl⟩ := add_node hrule h
      exact anchored_of_pending hpending
  | .nodes nodes, _, h =>
    obtain ⟨hpending, rfl⟩ := add_nodes h
    exact anchored_of_pending hpending
  | .branch branch, _, h =>
    obtain ⟨_, hclosed, hadd⟩ := bind_eq_ok.mp h
    cases hadd
    refine anchored_of_pending ?_
    unfold addBranch
    split
    · exact pending_of_closed hclosed
    · exact pending_of_closed hclosed

end Siblings

/-! ## Assembling lines -/

namespace Assembly

variable {services : Services σ E} {directories : List Text} {root : Bool}
  {siblings added : Siblings E} {state next : σ} {line : Line}

/-- One more line leaves a rule that goes on where it has started. -/
theorem anchored_line
    (h : Yields (Assembly.line services directories root siblings line) state added next)
    (hline : line.written ∈ lines) (hanchored : siblings.Anchored lines) : added.Anchored lines := by
  obtain ⟨reading, outcome, completed, middle, hread, hresolve, hcompletes, hadd⟩ := line_steps h
  have hechoes := Reading.echoes_of_resolve (Reading.echoes_of_ofLine hread) hresolve
  refine Siblings.anchored_of_add hanchored hline ?_ hadd
  rintro node rfl
  cases hcompletes with
  | comment =>
    obtain ⟨c, rfl, -⟩ := hechoes
    rfl
  | node =>
    obtain ⟨c, rfl, -⟩ := hechoes
    rfl

/-- Behind a forest of lines the rule that goes on has started on one of them. -/
theorem anchored_forest {trees : List Line}
    (h : Yields (forest services directories root siblings trees) state added next)
    (hlines : ∀ each ∈ Line.forestPreorder trees, each.written ∈ lines)
    (hanchored : siblings.Anchored lines) : added.Anchored lines := by
  induction trees generalizing siblings state with
  | nil =>
    rw [forest_nil h]
    exact hanchored
  | cons first rest ih =>
    obtain ⟨between, middle, hfirst, hrest⟩ := forest_cons h
    obtain ⟨hhead, htail⟩ := List.forall_mem_append.mp hlines
    exact ih hrest htail (anchored_line hfirst (Line.written_mem hhead) hanchored)

end Assembly

/-! ## Cutting a source into lines -/

namespace Line

variable {source : Text} {firstLine : Int} {filename : Option Text} {e : SyntaxError}

/-- A line that is indented wrongly is not blank, and its number is in the error. -/
theorem on_of_ofPhysical {layout : Layout} {position : Nat} {raws : List PhysicalLine}
    (h : ofPhysical filename firstLine layout position raws = .error e) :
    e.site.filename = none ∧ ∃ entry ∈ raws.zipIdx position,
      entry.1.isBlank = false ∧ e.site.line = Number.plus firstLine entry.2 := by
  induction raws generalizing layout position with
  | nil => cases h
  | cons raw rest ih =>
    -- a fault among the lines behind is one among all lines
    have hrest : ∀ {layout : Layout},
        ofPhysical filename firstLine layout (position + 1) rest = .error e →
        e.site.filename = none ∧ ∃ entry ∈ (raw :: rest).zipIdx position,
          entry.1.isBlank = false ∧ e.site.line = Number.plus firstLine entry.2 := by
      intro layout h
      obtain ⟨hname, entry, hentry, hline⟩ := ih h
      rw [List.zipIdx_cons]
      exact ⟨hname, entry, List.mem_cons_of_mem _ hentry, hline⟩
    rw [ofPhysical] at h
    split at h
    · exact hrest h
    · rename_i hblank
      dsimp only at h
      split at h
      · cases h
        rw [List.zipIdx_cons]
        exact ⟨rfl, (raw, position), List.mem_cons_self, by simpa using hblank, rfl⟩
      · rename_i layout depth _
        cases hbelow : ofPhysical filename firstLine layout (position + 1) rest with
        | error e' =>
          rw [hbelow] at h
          cases h
          exact hrest hbelow
        | ok below =>
          rw [hbelow] at h
          cases h

/-- A source that cannot be cut into lines is at fault on one of its lines. -/
theorem on_of_ofSource (h : ofSource source firstLine filename = .error e) :
    e.On (WrittenLine.ofSource source firstLine filename) := by
  obtain ⟨hname, ⟨raw, position⟩, hentry, hblank, hline⟩ := on_of_ofPhysical h
  refine ⟨hname, ⟨raw.content, ⟨Number.plus firstLine position, filename⟩⟩, ?_, hline.symm⟩
  refine List.mem_map.mpr ⟨(raw, position), List.mem_filter.mpr ⟨hentry, ?_⟩, rfl⟩
  simpa using hblank

/-- The line that is nested too deep is one of the run. -/
theorem mem_of_overIndented? {run : List Line} {line : Line} {levels : Int}
    (h : overIndented? run = some (line, levels)) : line ∈ run := by
  induction run with
  | nil => cases h
  | cons upper rest ih =>
    cases rest with
    | nil => cases h
    | cons lower rest =>
      rw [overIndented?] at h
      split at h
      · cases h
        exact List.mem_cons_of_mem _ List.mem_cons_self
      · exact List.mem_cons_of_mem _ (ih h)

/-- Lines that cannot be nested are at fault on one of them. -/
theorem on_of_nest {lines : List Line} (hlines : ofSource source firstLine filename = .ok lines)
    (h : nest lines 0 = .error e) : e.On (WrittenLine.ofSource source firstLine filename) := by
  unfold nest at h
  rw [(grounded_of_ofSource hlines).level_eq] at h
  dsimp only at h
  split at h
  · rename_i line levels hover
    cases h
    exact on_fault (written_of_mem_ofSource hlines (mem_of_overIndented? hover)) _
  · cases h

end Line

end Stylesheet
