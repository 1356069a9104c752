import Stylesheet.Document.Outcome
import Stylesheet.Proofs.Success

/-!
# What a line's reading says about the line

- `Line.selector`: the selector that a line gives a rule.
- `Construct.Echoes`: a construct repeats what its line says where it holds text of the line, and
  the line has none beneath it where the construct takes none.
- `echoes_of_ofLine`, `echoes_of_resolve`: the reading of a line echoes the line, and so does what
  it puts into a document once the services have answered.
-/

namespace Stylesheet

variable {σ E : Type}

/-- The selector that a line gives a rule: its text, without a backslash at the start. -/
def Line.selector : Text → Text
  | '\\' :: t => t
  | t => t

/-- Without a backslash at its start a line is its own selector. -/
theorem Line.selector_of_head {t : Text} (h : t.head? ≠ some '\\') : Line.selector t = t := by
  unfold Line.selector
  split
  · exact absurd rfl h
  · rfl

namespace Construct

/-- Whether the construct is an import. -/
def isImport : Construct E → Bool
  | .fileImport _ | .cssImport _ => true
  | _ => false

/-- Whether the construct is a rule. -/
def isRule : Construct E → Bool
  | .rule _ => true
  | _ => false

/-- What a construct that stands on a line of its own repeats of the line, and what it says about
the lines beneath. -/
def Echoes (line : Line) : Construct E → Prop
  | .rule selectors => selectors = [Line.selector line.text]
  | .comment text _ body => text = line.text ∧ body = Line.forestTexts line.children
  | .directive text => text = line.text
  | .binding _ _ _ | .mixinInclude _ _ | .debug _ => line.children = []
  | .conditional test => test.isSome
  | .fileImport _ | .cssImport _ => False
  | .attribute _ _ _ | .mixinDefinition _ _ | .whileLoop _ | .forLoop _ _ _ _ => True

end Construct

/-! ## Readings -/

namespace Reading

/-- What a reading says about its line. Only a line behind a condition is read as a branch. -/
def Echoes (afterConditional : Bool) (line : Line) : Reading → Prop
  | .construct c => c.Echoes line
  | .definition _ _ => True
  | .imports entries => line.children = [] ∧ entries ≠ []
  | .branch _ => afterConditional = true

variable {afterConditional : Bool} {line : Line} {reading : Reading}

/-- A line beneath which nothing may stand has nothing beneath it once it has been read. -/
theorem children_of_forbidNesting {parent : Childless} {u : Unit}
    (h : line.forbidNesting parent = .ok u) : line.children = [] := by
  unfold Line.forbidNesting at h
  split at h
  · assumption
  · cases h

/-- A line that is read as an optional construct echoes what this construct repeats of it. -/
theorem echoes_ofConstruct? {cause : Cause} {c? : Option (Construct Slot)}
    (h : ofConstruct? line cause c? = .ok reading) (hc : ∀ c, c? = some c → c.Echoes line) :
    reading.Echoes afterConditional line := by
  unfold ofConstruct? at h
  split at h
  · cases h
    exact hc _ rfl
  · cases h

/-- A rule repeats its line, unless a backslash at the start was taken off. -/
theorem echoes_rule (h : line.text.head? ≠ some '\\') :
    (rule line.text).Echoes afterConditional line := by
  show [line.text] = [Line.selector line.text]
  rw [Line.selector_of_head h]

/-- An attribute with its name in front is an attribute, whichever value it has. -/
theorem echoes_inline? {c : Construct Slot} (h : Attribute.inline? line.text = some c) :
    c.Echoes line := by
  -- an attribute need not repeat anything, so that only its being one is at stake
  unfold Attribute.inline? at h
  dsimp only at h
  split at h
  · cases h
  · split at h
    · cases h
      trivial
    · split at h
      · split at h
        · cases h
          trivial
        · cases h
      · cases h

/-- So is an attribute with a mark in front. -/
theorem echoes_prefixed? {c : Construct Slot} (h : Attribute.prefixed? line.text = some c) :
    c.Echoes line := by
  unfold Attribute.prefixed? at h
  split at h
  · dsimp only at h
    split at h
    · cases h
    · split at h
      · cases h
        trivial
      · split at h
        · cases h
          trivial
        · cases h
  · cases h

theorem echoes_ofPlain (hhead : line.text.head? ≠ some '\\') (h : ofPlain line = .ok reading) :
    reading.Echoes afterConditional line := by
  unfold ofPlain at h
  split at h
  · exact echoes_ofConstruct? h fun c hc => echoes_inline? hc
  · cases h
    exact echoes_rule hhead

theorem echoes_ofAttribute (hhead : line.text.head? ≠ some '\\')
    (h : ofAttribute line = .ok reading) : reading.Echoes afterConditional line := by
  unfold ofAttribute at h
  split at h
  · cases h
    exact echoes_rule hhead
  · exact echoes_ofConstruct? h fun c hc => echoes_prefixed? hc

theorem echoes_ofBinding (h : ofBinding line = .ok reading) :
    reading.Echoes afterConditional line := by
  obtain ⟨_, hforbid, h⟩ := bind_eq_ok.mp h
  refine echoes_ofConstruct? h fun c hc => ?_
  unfold Variable.binding? at hc
  simp only [Option.bind_eq_bind, Option.bind_eq_some_iff, Option.pure_def, Option.some.injEq] at hc
  obtain ⟨_, _, _, _, _, _, rfl⟩ := hc
  exact children_of_forbidNesting hforbid

/-- A comment keeps its first line and the texts of all lines beneath it. -/
theorem echoes_ofComment (hhead : line.text.head? ≠ some '\\') (h : ofComment line = .ok reading) :
    reading.Echoes afterConditional line := by
  unfold ofComment at h
  split at h
  · cases h
    exact ⟨rfl, rfl⟩
  · cases h
    exact ⟨rfl, rfl⟩
  · cases h
    exact echoes_rule hhead

theorem echoes_ofDefinition (h : ofDefinition line = .ok reading) :
    reading.Echoes afterConditional line := by
  unfold ofDefinition at h
  split at h
  · cases h
    trivial
  · cases h

/-- An include has nothing beneath it; a line that only looks like one is a rule. -/
theorem echoes_ofInclude (hhead : line.text.head? ≠ some '\\') (h : ofInclude line = .ok reading) :
    reading.Echoes afterConditional line := by
  unfold ofInclude at h
  split at h
  · cases h
    exact echoes_rule hhead
  · -- lines beneath it are forbidden before its arguments are read
    obtain ⟨_, hforbid, h⟩ := bind_eq_ok.mp h
    split at h
    · cases h
    · split at h
      · cases h
      · cases h
        exact children_of_forbidNesting hforbid

/-! ### Directives -/

/-- Even an empty value has one entry. -/
theorem entries_ne_nil (value : Text) : Import.entries value ≠ [] := by
  unfold Import.entries
  rw [ne_eq, List.map_eq_nil_iff]
  exact Text.pieces_ne_nil ',' value

/-- An import has nothing beneath it and at least one entry. -/
theorem echoes_ofImport {directive : Directive} (h : ofImport line directive = .ok reading) :
    reading.Echoes afterConditional line := by
  unfold ofImport at h
  split at h
  · cases h
  · cases h
  · obtain ⟨_, hforbid, h⟩ := bind_eq_ok.mp h
    cases h
    exact ⟨children_of_forbidNesting hforbid, entries_ne_nil _⟩

/-- An alternative is read only behind a condition. -/
theorem echoes_ofAlternative {directive : Directive}
    (h : ofAlternative afterConditional line directive = .ok reading) :
    reading.Echoes afterConditional line := by
  unfold ofAlternative at h
  split at h
  · cases h
  · rename_i hcond
    -- what follows the keyword decides on the test, but not on where the line may stand
    have hcond : afterConditional = true := by simpa using hcond
    split at h
    · cases h
      exact hcond
    · cases h
      exact hcond
    · split at h
      · cases h
      · cases h
        exact hcond

/-- A loop need not repeat its line. -/
theorem echoes_loop {column : Int} {head : Text} {c : Construct Slot}
    (h : Loop.read line.text column head = .ok c) : c.Echoes line := by
  unfold Loop.read at h
  split at h
  · cases h
  · split at h
    · cases h
      trivial
    · cases h

/-- Every keyword gives a reading that echoes its line, and an unknown one repeats the line as it
is. -/
theorem echoes_ofDirective (h : ofDirective afterConditional line = .ok reading) :
    reading.Echoes afterConditional line := by
  unfold ofDirective at h
  dsimp only at h
  -- one case for each keyword, in the order of `ofDirective`
  split at h
  · cases h
    rfl
  · exact echoes_ofImport h
  · exact echoes_ofAlternative h
  · split at h
    · rename_i hread
      cases h
      exact echoes_loop hread
    · cases h
  · obtain ⟨_, _, h⟩ := bind_eq_ok.mp h
    cases h
    trivial
  · obtain ⟨_, _, h⟩ := bind_eq_ok.mp h
    cases h
    rfl
  · obtain ⟨_, _, h⟩ := bind_eq_ok.mp h
    obtain ⟨_, hforbid, h⟩ := bind_eq_ok.mp h
    cases h
    exact children_of_forbidNesting hforbid

/-! ### All lines -/

/-- A mark is known by its character. -/
theorem char_of_ofChar? {c : Char} {mark : Mark} (h : Mark.ofChar? c = some mark) :
    mark.char = c := by
  have hfound := List.find?_some h
  exact eq_of_beq hfound

theorem echoes_escape (hhead : line.text.head? = some '\\') :
    (rule (Text.dropUnit line.text)).Echoes afterConditional line := by
  show [Text.dropUnit line.text] = [Line.selector line.text]
  cases htext : line.text with
  | nil =>
    rw [htext] at hhead
    cases hhead
  | cons c t =>
    rw [htext] at hhead
    cases hhead
    rfl

/-- Whatever mark a line starts with, its reading echoes it. -/
theorem echoes_ofMark {mark : Mark} (hhead : line.text.head? = some mark.char)
    (h : ofMark afterConditional line mark = .ok reading) :
    reading.Echoes afterConditional line := by
  -- of all marks only the escape drops a character of the text
  have hplain : mark ≠ .escape → line.text.head? ≠ some '\\' := by
    intro hne heq
    rw [hhead] at heq
    cases mark <;> first | exact hne rfl | cases heq
  match mark, hplain, h with
  | .binding, _, h => exact echoes_ofBinding h
  | .mixinInclude, hplain, h => exact echoes_ofInclude (hplain (by decide)) h
  | .comment, hplain, h => exact echoes_ofComment (hplain (by decide)) h
  | .attribute, hplain, h => exact echoes_ofAttribute (hplain (by decide)) h
  | .definition, _, h => exact echoes_ofDefinition h
  | .directive, _, h => exact echoes_ofDirective h
  | .escape, _, h =>
    cases h
    exact echoes_escape hhead

/-- The reading of a line echoes the line. -/
theorem echoes_of_ofLine (h : ofLine afterConditional line = .ok reading) :
    reading.Echoes afterConditional line := by
  unfold ofLine at h
  split at h
  · rename_i mark hmark
    obtain ⟨c, hhead, hc⟩ := Option.bind_eq_some_iff.mp hmark
    exact echoes_ofMark (by rw [hhead, char_of_ofChar? hc]) h
  · rename_i hnone
    refine echoes_ofPlain (fun hhead => ?_) h
    rw [hhead] at hnone
    cases hnone

end Reading

/-! ## Answers of the services -/

open Parsing

variable {line : Line} {state next : σ}

/-- A construct repeats the same of its line once its expressions have been read. -/
theorem Construct.echoes_of_traverse {f : Slot → Parsing σ E} {c : Construct Slot}
    {filled : Construct E} (h : Yields (c.traverse f) state filled next) (hc : c.Echoes line) :
    filled.Echoes line := by
  -- the constructs that repeat something hold no expression in that place, so the reading leaves it
  -- alone
  match c, hc, h with
  | .rule _, hc, h | .comment _ _ _, hc, h | .directive _, hc, h =>
    obtain ⟨rfl, -⟩ := yields_pure.mp h
    exact hc
  | .attribute _ (.literal _) _, _, h =>
    obtain ⟨rfl, -⟩ := yields_pure.mp h
    trivial
  | .attribute _ (.expression _) _, _, h | .mixinDefinition _ _, _, h | .whileLoop _, _, h =>
    obtain ⟨_, _, -, h⟩ := yields_bind.mp h
    obtain ⟨rfl, -⟩ := yields_pure.mp h
    trivial
  | .binding _ _ _, hc, h | .mixinInclude _ _, hc, h | .debug _, hc, h =>
    obtain ⟨_, _, -, h⟩ := yields_bind.mp h
    obtain ⟨rfl, -⟩ := yields_pure.mp h
    exact hc
  -- a line of its own is no branch without a test
  | .conditional none, hc, _ => cases hc
  | .conditional (some _), _, h =>
    obtain ⟨_, _, -, h⟩ := yields_bind.mp h
    obtain ⟨rfl, -⟩ := yields_pure.mp h
    rfl
  | .forLoop _ _ _ _, _, h =>
    obtain ⟨_, _, -, h⟩ := yields_bind.mp h
    obtain ⟨_, _, -, h⟩ := yields_bind.mp h
    obtain ⟨rfl, -⟩ := yields_pure.mp h
    trivial

/-- What a line puts into a document echoes the line: nodes that stand where the line does, with
nothing beneath them yet. -/
def Outcome.Echoes (afterConditional : Bool) (line : Line) : Outcome E → Prop
  | .node single => ∃ c, single = ⟨c, line.site, [], []⟩ ∧ c.Echoes line
  | .nodes all =>
    line.children = [] ∧ all ≠ [] ∧
      ∀ each ∈ all, ∃ c, each = ⟨c, line.site, [], []⟩ ∧ c.isImport = true
  | .branch alternative =>
    afterConditional = true ∧ ∃ test, alternative = ⟨.conditional test, line.site, [], []⟩

namespace Reading

variable {services : Services σ E} {directories : List Text} {afterConditional : Bool}

/-- An entry of an import becomes an import, of a stylesheet or of a plain style sheet. -/
theorem isImport_of_resolveEntry {entry : ImportEntry} {c : Construct E}
    (h : Yields (resolveEntry services directories line entry) state c next) :
    c.isImport = true := by
  match entry, h with
  | .css _, h =>
    obtain ⟨rfl, -⟩ := yields_pure.mp h
    rfl
  | .sheet _, h =>
    obtain ⟨_, _, -, h⟩ := yields_bind.mp h
    split at h
    · obtain ⟨rfl, -⟩ := yields_pure.mp h
      rfl
    · obtain ⟨rfl, -⟩ := yields_pure.mp h
      rfl

/-- What a line puts into a document echoes the line as its reading did. -/
theorem echoes_of_resolve {reading : Reading} {outcome : Outcome E}
    (hreading : reading.Echoes afterConditional line)
    (h : Yields (reading.resolve services directories line) state outcome next) :
    outcome.Echoes afterConditional line := by
  match reading, hreading, h with
  | .construct c, hc, h =>
    obtain ⟨filled, _, hfilled, h⟩ := yields_bind.mp h
    obtain ⟨rfl, -⟩ := yields_pure.mp h
    exact ⟨filled, rfl, Construct.echoes_of_traverse hfilled hc⟩
  | .definition _ _, _, h =>
    obtain ⟨_, _, -, h⟩ := yields_bind.mp h
    obtain ⟨rfl, -⟩ := yields_pure.mp h
    exact ⟨_, rfl, trivial⟩
  | .imports entries, ⟨hchildren, hne⟩, h =>
    obtain ⟨constructs, _, hconstructs, h⟩ := yields_bind.mp h
    obtain ⟨rfl, -⟩ := yields_pure.mp h
    obtain ⟨hlength, hall⟩ := forall_of_yields_mapM hconstructs fun _ _ _ _ => isImport_of_resolveEntry
    -- as many nodes as entries, and there is at least one entry
    refine ⟨hchildren, fun hnil => hne ?_, fun node hnode => ?_⟩
    · rw [List.map_eq_nil_iff] at hnil
      rw [hnil] at hlength
      exact List.eq_nil_of_length_eq_zero hlength.symm
    · obtain ⟨c, hc, rfl⟩ := List.mem_map.mp hnode
      exact ⟨c, rfl, hall c hc⟩
  | .branch none, hcond, h =>
    obtain ⟨rfl, -⟩ := yields_pure.mp h
    exact ⟨hcond, none, rfl⟩
  | .branch (some _), hcond, h =>
    obtain ⟨test, _, -, h⟩ := yields_bind.mp h
    obtain ⟨rfl, -⟩ := yields_pure.mp h
    exact ⟨hcond, some test, rfl⟩

end Reading

end Stylesheet
