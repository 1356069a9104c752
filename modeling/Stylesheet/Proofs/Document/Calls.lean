import Stylesheet.Proofs.Document.Kinds
import Stylesheet.Proofs.Document.Runs

/-!
# The calls of a document

A document is read in one pass: line after line asks the services, each of them from left to right.

- `Reading.traced_resolve`: a line that has been read makes a run of calls that answers what it
  asks.
- `Line.askings`: what a line and all lines beneath it ask, in order. `Line.mem_forestAskings`
  traces it back to the reading of a line.
- `Assembly.traced_line`, `Assembly.traced_forest`: lines that are assembled make a run of what they
  ask.
- `Document.askings`, `Document.runs_of_parseWith`: so does a document that is read.
-/

namespace Stylesheet

open Parsing

variable {σ E : Type}

/-! ## Readings -/

/-- What is asked by a line. -/
def Line.asking (line : Line) (asks : List Ask) : List (Line × Ask) := asks.map fun ask => (line, ask)

variable {services : Services σ E} {directories : List Text} {lines : List WrittenLine} {line : Line}

/-- Reading a construct puts its parts to the services, from left to right. -/
theorem Construct.traced_traverse (c : Construct Slot) :
    Traced services directories lines (line.asking (Reading.asksOf c.parts))
      (c.traverse (services.fill line)) (c.traverse (services.recorded.fill line)) := by
  match c with
  | .rule _ | .attribute _ (.literal _) _ | .comment _ _ _ | .directive _ | .conditional none
  | .fileImport _ | .cssImport _ => exact traced_pure _
  | .attribute name (.expression slot) form => exact (Services.traced_fill _ slot).map_pure _
  | .binding name slot guarded => exact (Services.traced_fill _ slot).map_pure _
  | .conditional (some slot) => exact (Services.traced_fill _ slot).map_pure _
  | .whileLoop slot => exact (Services.traced_fill _ slot).map_pure _
  | .debug slot => exact (Services.traced_fill _ slot).map_pure _
  | .forLoop name first last inclusive =>
    exact (Services.traced_fill _ first).bind fun _ _ _ _ => (Services.traced_fill _ last).map_pure _
  | .mixinInclude name arguments =>
    -- what is asked is a map of the parts; as one request for each argument it fits the recursion
    have hasks : line.asking (Reading.asksOf (mixinInclude name arguments).parts) =
        arguments.flatMap fun slot => [(line, .expression .argument slot)] := by
      simp only [Line.asking, Reading.asksOf, parts, List.map_map]
      exact List.map_eq_flatMap
    rw [hasks]
    exact (traced_mapM arguments fun slot _ => Services.traced_fill _ slot).map_pure _
  | .mixinDefinition name parameters =>
    have hasks : line.asking (Reading.asksOf (mixinDefinition name parameters).parts) =
        parameters.flatMap fun parameter => line.asking (Reading.asksOf parameter.parts) := by
      simp [Line.asking, Reading.asksOf, parts, List.map_flatMap]
    rw [hasks]
    refine (traced_mapM parameters fun parameter _ => ?_).map_pure _
    obtain ⟨name, _ | slot⟩ := parameter
    · exact traced_pure _
    · exact (Services.traced_fill _ slot).map_pure _

namespace Reading

/-- A faulty parameter asks nothing: its error is on the line. -/
theorem traced_resolveParameter (hline : line.written ∈ lines)
    (parameter : Except Cause (Parameter Slot)) :
    Traced services directories lines (line.asking (parameterAsks parameter))
      (resolveParameter services line parameter)
      (resolveParameter services.recorded line parameter) := by
  match parameter with
  | .error cause => exact traced_throw (Line.on_fault hline cause)
  | .ok ⟨name, none⟩ => exact traced_pure _
  | .ok ⟨name, some slot⟩ => exact (Services.traced_fill _ slot).map_pure _

/-- An entry asks for a stylesheet unless it is put out as it is. -/
theorem traced_resolveEntry (entry : ImportEntry) :
    Traced services directories lines (line.asking (entryAsks entry))
      (resolveEntry services directories line entry)
      (resolveEntry services.recorded directories line entry) := by
  match entry with
  | .css text => exact traced_pure _
  | .sheet name =>
    refine (Services.traced_find name).bind_last fun path _ _ _ => ?_
    by_cases hcss : cssExtension.isSuffixOf path = true
    · rw [if_pos hcss, if_pos hcss]
      exact traced_pure _
    · rw [if_neg hcss, if_neg hcss]
      exact traced_pure _

/-- The services answer what a line asks of them, or refuse to. -/
theorem traced_resolve (hline : line.written ∈ lines) (reading : Reading) :
    Traced services directories lines (line.asking reading.asks)
      (reading.resolve services directories line)
      (reading.resolve services.recorded directories line) := by
  match reading with
  | .construct c => exact (Construct.traced_traverse c).map_pure _
  | .definition name parameters =>
    have hasks : line.asking (definition name parameters).asks =
        parameters.flatMap fun parameter => line.asking (parameterAsks parameter) :=
      List.map_flatMap
    rw [hasks]
    exact (traced_mapM parameters fun parameter _ => traced_resolveParameter hline parameter).map_pure _
  | .imports entries =>
    have hasks : line.asking (imports entries).asks =
        entries.flatMap fun entry => line.asking (entryAsks entry) := List.map_flatMap
    rw [hasks]
    exact (traced_mapM entries fun entry _ => traced_resolveEntry entry).map_pure _
  | .branch none => exact traced_pure _
  | .branch (some slot) => exact (Services.traced_fill _ slot).map_pure _

end Reading

/-! ## Lines -/

/-- Whether the lines beneath a line are kept as text. -/
def Reading.isComment : Reading → Bool
  | .construct c => c.isComment
  | _ => false

def Outcome.isComment : Outcome E → Bool
  | .node single => single.construct.isComment
  | _ => false

theorem Reading.isComment_of_resolve {reading : Reading} {outcome : Outcome E} {state next : σ}
    (h : Yields (reading.resolve services directories line) state outcome next) :
    reading.isComment = outcome.isComment := by
  match reading, h with
  | .construct c, h =>
    obtain ⟨filled, _, hfilled, h⟩ := yields_bind.mp h
    obtain ⟨rfl, -⟩ := yields_pure.mp h
    exact (Construct.kind_of_traverse hfilled).2.1.symm
  | .definition _ _, h | .imports _, h | .branch (some _), h =>
    obtain ⟨_, _, -, h⟩ := yields_bind.mp h
    obtain ⟨rfl, -⟩ := yields_pure.mp h
    rfl
  | .branch none, h =>
    obtain ⟨rfl, -⟩ := yields_pure.mp h
    rfl

mutual

/-- What a line and all lines beneath it ask, in order. A line that cannot be read asks nothing, and
neither do the lines of a comment. -/
def Line.askings : Line → List (Line × Ask)
  | ⟨text, depth, index, offset, filename, children⟩ =>
    let line : Line := ⟨text, depth, index, offset, filename, children⟩
    match Reading.ofLine true line with
    | .error _ => []
    | .ok reading =>
      line.asking reading.asks ++ if reading.isComment then [] else forestAskings children

/-- What the lines of a forest ask. -/
def Line.forestAskings : List Line → List (Line × Ask)
  | [] => []
  | line :: lines => askings line ++ forestAskings lines

end

/-- A line that can be read asks what its reading asks, and then what the lines beneath it ask. -/
theorem Line.askings_eq {afterConditional : Bool} {reading : Reading}
    (h : Reading.ofLine afterConditional line = .ok reading) :
    line.askings =
      line.asking reading.asks ++ if reading.isComment then [] else forestAskings line.children := by
  cases line
  rw [askings]
  dsimp only
  rw [Reading.ofLine_true h]

mutual

/-- What is asked by a line of a forest is what the line was read as asks. -/
theorem Line.mem_askings : ∀ (tree : Line) {line : Line} {ask : Ask}, (line, ask) ∈ tree.askings →
    { line with children := [] } ∈ tree.preorder ∧
      ∃ reading, Reading.ofLine true line = .ok reading ∧ ask ∈ reading.asks
  | ⟨text, depth, index, offset, filename, children⟩, line, ask, h => by
    rw [preorder]
    rw [askings] at h
    split at h
    · exact absurd h List.not_mem_nil
    · rename_i reading hread
      rcases List.mem_append.mp h with h | h
      · obtain ⟨_, hask, heq⟩ := List.mem_map.mp h
        cases heq
        exact ⟨List.mem_cons_self, reading, hread, hask⟩
      · split at h
        · exact absurd h List.not_mem_nil
        · obtain ⟨hline, hasks⟩ := Line.mem_forestAskings children h
          exact ⟨List.mem_cons_of_mem _ hline, hasks⟩

/-- What the lines of a forest ask is asked by one of them, which can be read so. -/
theorem Line.mem_forestAskings : ∀ (trees : List Line) {line : Line} {ask : Ask},
    (line, ask) ∈ forestAskings trees → { line with children := [] } ∈ forestPreorder trees ∧
      ∃ reading, Reading.ofLine true line = .ok reading ∧ ask ∈ reading.asks
  | [], _, _, h => absurd h List.not_mem_nil
  | first :: rest, line, ask, h => by
    rw [forestPreorder]
    rcases List.mem_append.mp h with h | h
    · obtain ⟨hline, hasks⟩ := Line.mem_askings first h
      exact ⟨List.mem_append_left _ hline, hasks⟩
    · obtain ⟨hline, hasks⟩ := Line.mem_forestAskings rest h
      exact ⟨List.mem_append_right _ hline, hasks⟩

end

namespace Assembly

variable {root : Bool} {siblings : Siblings E}

/-- The nodes beneath a line ask what they ask, and adding them asks nothing. -/
theorem traced_finish {asks : List (Line × Ask)} {nested : Parsing σ (Siblings E)}
    {nested' : Parsing (σ × List (Services.Call E)) (Siblings E)} {single : List (Node E) → Outcome E}
    (hanchored : siblings.Anchored lines) (hline : line.written ∈ lines)
    (hnested : Traced services directories lines asks nested nested')
    (hbeneath : ∀ beneath state next, Yields nested state beneath next → beneath.Anchored lines) :
    Traced services directories lines asks
      (do
        let nested ← nested
        siblings.add root line (single (← nested.finish)))
      (do
        let nested ← nested'
        siblings.add root line (single (← nested.finish))) := by
  refine hnested.bind_last fun beneath state next h => ?_
  refine Traced.lift_bind (fun _ he => Siblings.on_of_finish (hbeneath _ _ _ h) he) fun nodes _ => ?_
  exact traced_lift fun _ he => Siblings.on_of_add hanchored hline he

mutual

/-- A line and all lines beneath it make a run of calls that answers what they ask. -/
theorem traced_line : ∀ (line : Line) (root : Bool) (siblings : Siblings E),
    (∀ each ∈ line.preorder, each.written ∈ lines) → siblings.Anchored lines →
    Traced services directories lines line.askings
      (Assembly.line services directories root siblings line)
      (Assembly.line services.recorded directories root siblings line)
  | ⟨text, depth, index, offset, filename, children⟩, root, siblings, hlines, hanchored => by
    obtain ⟨-, hbelow⟩ := List.forall_mem_cons.mp hlines
    have hline := Line.written_mem hlines
    have hbeneath : ∀ beneath state next,
        Yields (forest services directories false {} children) state beneath next →
          beneath.Anchored lines :=
      fun _ _ _ h => anchored_forest h hbelow Siblings.anchored_empty
    have hforest := traced_forest children false {} hbelow Siblings.anchored_empty
    rw [Assembly.line, Assembly.line]
    refine Traced.lift_bind (fun _ he => Reading.on_of_ofLine hlines he) fun reading hread => ?_
    rw [Line.askings_eq hread]
    refine (Reading.traced_resolve hline reading).bind fun outcome state next houtcome => ?_
    have hkind := Reading.isComment_of_resolve houtcome
    match outcome, houtcome, hkind with
    | .node node, _, hkind =>
      have hkind : reading.isComment = node.construct.isComment := hkind
      dsimp only
      rw [hkind]
      by_cases hcomment : node.construct.isComment = true
      · rw [if_pos hcomment, if_pos hcomment, if_pos hcomment]
        exact traced_lift fun _ he => Siblings.on_of_add hanchored hline he
      · rw [if_neg hcomment, if_neg hcomment, if_neg hcomment]
        exact traced_finish hanchored hline hforest hbeneath
    | .nodes nodes, houtcome, hkind =>
      -- no line stands beneath an import
      obtain ⟨hchildren, -, -⟩ := Reading.echoes_of_resolve (Reading.echoes_of_ofLine hread) houtcome
      have hasks : Line.forestAskings children = [] := by
        rw [show children = [] from hchildren]
        rfl
      rw [if_neg (by rw [hkind]; exact Bool.false_ne_true)]
      show Traced services directories lines (Line.forestAskings children) _ _
      rw [hasks]
      exact traced_lift fun _ he => Siblings.on_of_add hanchored hline he
    | .branch branch, _, hkind =>
      rw [if_neg (by rw [hkind]; exact Bool.false_ne_true)]
      exact traced_finish hanchored hline hforest hbeneath

/-- The lines of a forest make a run of calls that answers what they ask. -/
theorem traced_forest : ∀ (trees : List Line) (root : Bool) (siblings : Siblings E),
    (∀ each ∈ Line.forestPreorder trees, each.written ∈ lines) → siblings.Anchored lines →
    Traced services directories lines (Line.forestAskings trees)
      (forest services directories root siblings trees)
      (forest services.recorded directories root siblings trees)
  | [], _, siblings, _, _ => by
    rw [forest, forest]
    exact traced_pure siblings
  | first :: rest, root, siblings, hlines, hanchored => by
    obtain ⟨hhead, htail⟩ := List.forall_mem_append.mp hlines
    rw [forest, forest, Line.forestAskings]
    refine (traced_line first root siblings hhead hanchored).bind fun between _ _ h => ?_
    exact traced_forest rest root between htail
      (anchored_line h (Line.written_mem hhead) hanchored)

end

end Assembly

/-! ## Documents -/

namespace Document

variable {overrides : Overrides} {source : Text}

/-- What the lines of a source ask, in order. -/
def askings (overrides : Overrides) (source : Text) : List (Line × Ask) :=
  match Line.ofSource source overrides.resolve.firstLine overrides.filename with
  | .error _ => []
  | .ok lines =>
    match Line.nest lines 0 with
    | .error _ => []
    | .ok (trees, _) => Line.forestAskings trees

/-- What is asked is asked by a line of the source, and by what it was read as. -/
theorem mem_askings {line : Line} {ask : Ask} (h : (line, ask) ∈ askings overrides source) :
    (∃ lines, Line.ofSource source overrides.resolve.firstLine overrides.filename = .ok lines ∧
      { line with children := [] } ∈ lines) ∧
      ∃ reading, Reading.ofLine true line = .ok reading ∧ ask ∈ reading.asks := by
  unfold askings at h
  split at h
  · exact absurd h List.not_mem_nil
  · rename_i lines hlines
    split at h
    · exact absurd h List.not_mem_nil
    · rename_i trees next hnest
      obtain ⟨hline, hasks⟩ := Line.mem_forestAskings trees h
      rw [Line.forestPreorder_of_nest hlines hnest] at hline
      exact ⟨⟨lines, hlines, hline⟩, hasks⟩

/-- Every request is made for a line that stands in the source. -/
theorem written_of_mem_askings {line : Line} {ask : Ask}
    (h : (line, ask) ∈ askings overrides source) :
    line.written ∈ WrittenLine.ofSource source overrides.resolve.firstLine overrides.filename := by
  obtain ⟨⟨lines, hlines, hline⟩, -⟩ := mem_askings h
  have hwritten := Line.written_of_mem_ofSource hlines hline
  exact hwritten

/-- The nodes of a source are made by a run of calls that answers what its lines ask. -/
theorem traced_nodes (services : Services σ E) (overrides : Overrides) (source : Text) :
    Traced services overrides.resolve.searchPath
      (WrittenLine.ofSource source overrides.resolve.firstLine overrides.filename)
      (askings overrides source) (nodes services overrides.resolve source)
      (nodes services.recorded overrides.resolve source) := by
  unfold nodes
  refine Traced.lift_bind (fun _ he => Line.on_of_ofSource he) fun lines hlines => ?_
  refine Traced.lift_bind (fun _ he => Line.on_of_nest hlines he) fun (trees, next) hnest => ?_
  have hlines : Line.ofSource source overrides.resolve.firstLine overrides.filename = .ok lines :=
    hlines
  -- both go through the same lines and the same forest, so these steps match
  have hasks : askings overrides source = Line.forestAskings trees := by
    unfold askings
    rw [hlines]
    dsimp only
    rw [hnest]
  have hwritten := Line.written_of_mem_forestPreorder hlines hnest
  rw [hasks]
  refine (Assembly.traced_forest trees true {} hwritten Siblings.anchored_empty).bind_last ?_
  intro siblings _ _ h
  have hanchored := Assembly.anchored_forest h hwritten Siblings.anchored_empty
  exact traced_lift fun _ he => Siblings.on_of_finish hanchored he

/-- The document of nodes that have been read, or the error with its file named. -/
def close (overrides : Overrides) (result : Except SyntaxError (List (Node E))) :
    Except SyntaxError (Document E) :=
  (result.map fun nodes => ⟨nodes, overrides.resolve⟩).mapError
    (SyntaxError.inFile overrides.filename)

/-- The services end in the same state whether the file of an error is named or not. -/
theorem outcome_parseWith (services : Services σ E) (overrides : Overrides) (source : Text)
    (state : σ) :
    (parseWith services overrides source).outcome state =
      (close overrides ((nodes services overrides.resolve source).outcome state).1,
        ((nodes services overrides.resolve source).outcome state).2) := by
  unfold parseWith
  dsimp only
  rw [outcome_adapt, outcome_bind]
  cases (nodes services overrides.resolve source).outcome state with
  | mk result next => cases result <;> rfl

/-- To read a document is to make a run of calls that answers what its lines ask. Noting the calls
changes nothing else. -/
theorem runs_of_parseWith (services : Services σ E) (overrides : Overrides) (source : Text)
    (state : σ) :
    ∃ result final calls,
      Runs services overrides.resolve.searchPath
        (WrittenLine.ofSource source overrides.resolve.firstLine overrides.filename)
        (askings overrides source) state calls result final ∧
      (parseWith services overrides source).outcome state = (close overrides result, final) ∧
      (parseWith services.recorded overrides source).outcome (state, []) =
        (close overrides result, final, calls) := by
  obtain ⟨calls, hnoted, hruns⟩ := traced_nodes services overrides source state []
  refine ⟨_, _, calls, hruns, outcome_parseWith services overrides source state, ?_⟩
  rw [outcome_parseWith, hnoted]
  rfl

end Document

end Stylesheet
