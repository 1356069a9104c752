import Stylesheet.Proofs.Document.Moves

/-!
# The starting line of a document

Where a document starts has no bearing on what is read from it, but for the numbers of its lines:
each is the starting line and the number of line breaks in front, added up and rounded.

- `Line.numberedBy`, `Document.numberedBy`: the lines, and the document, of a source whose lines are
  numbered in any way. `numberedBy_moved` says that another numbering moves them and nothing else.
- `Document.startingAt`: a document that is numbered anew, with another starting line among its
  settings.
- `Document.parse_startingAt`: a source at a starting line is numbered by sums of it and the
  positions.
- `Document.parse_shifted`: the documents that a source gives at two starting lines.
-/

namespace Stylesheet

open Parsing

/-- Lines are numbered anew and stay at their columns. -/
def Relocation.renumbering (f : Int → Int) : Relocation := ⟨f, fun _ => 0⟩

/-! ## Lines -/

namespace Line

/-- The lines that are not blank among physical lines, the first of which stands at a position. The
line at position `n` has the number `number n`. -/
def numberedBy (number : Nat → Int) (filename : Option Text) :
    Layout → Nat → List PhysicalLine → Except SyntaxError (List Line)
  | _, _, [] => .ok []
  | layout, position, raw :: rest =>
    if raw.isBlank then numberedBy number filename layout (position + 1) rest
    else
      match layout.measure raw.indentation with
      | .error cause => .error (.atLine cause (number position))
      | .ok (layout, depth) =>
        (numberedBy number filename layout (position + 1) rest).map
          ({ text := raw.content, depth := depth, index := number position,
             offset := raw.indentation.length, filename := filename } :: ·)

/-- The lines of a source have the sum of the first number and their position as their number. -/
theorem ofPhysical_eq_numberedBy (filename : Option Text) (firstLine : Int) (layout : Layout)
    (position : Nat) (raws : List PhysicalLine) :
    ofPhysical filename firstLine layout position raws =
      numberedBy (fun n => Number.plus firstLine n) filename layout position raws := by
  induction raws generalizing layout position with
  | nil => rfl
  | cons raw rest ih =>
    rw [ofPhysical, numberedBy]
    split
    · exact ih layout (position + 1)
    · cases layout.measure raw.indentation with
      | error cause => rfl
      | ok measured =>
        dsimp only
        rw [ih]

/-- Another numbering of the lines moves them, and the error in them if there is one. -/
theorem numberedBy_moved {number number' : Nat → Int} {f : Int → Int} {raws : List PhysicalLine}
    (filename : Option Text) (layout : Layout) (position : Nat)
    (h : ∀ n, position ≤ n → n < position + raws.length → f (number n) = number' n) :
    numberedBy number' filename layout position raws =
      moved (.renumbering f) (List.map (.relocate (.renumbering f)))
        (numberedBy number filename layout position raws) := by
  -- the numbers of the lines in front do not matter, so what is assumed holds of the lines behind,
  -- too
  induction raws generalizing layout position with
  | nil => rfl
  | cons raw rest ih =>
    have hhere : f (number position) = number' position := h position (Nat.le_refl _) (by simp)
    have hrest : ∀ layout, numberedBy number' filename layout (position + 1) rest =
        moved (.renumbering f) (List.map (.relocate (.renumbering f)))
          (numberedBy number filename layout (position + 1) rest) := by
      intro layout
      refine ih layout (position + 1) fun n hle hlt => h n (Nat.le_of_succ_le hle) ?_
      rw [List.length_cons]
      omega
    rw [numberedBy, numberedBy, hrest, ← hhere]
    split
    · rfl
    · cases layout.measure raw.indentation with
      | error cause => rfl
      | ok measured =>
        dsimp only
        rw [hrest]
        cases numberedBy number filename measured.1 (position + 1) rest with
        | error e => rfl
        | ok lines =>
          show Except.ok (_ :: lines.map _) = Except.ok (Line.relocate _ _ :: lines.map _)
          rw [Line.relocate, Relocation.renumbering, Int.add_zero]
          rfl

end Line

/-! ## Documents -/

namespace Document

variable {fs : FileSystem} {overrides : Overrides} {source : Text} {s : Int}

/-- The document with another starting line among its settings. -/
def withLine (line : Option Int) (document : Document Expression) : Document Expression :=
  { document with options.line := line }

/-- The document with its lines numbered anew, and with the starting line among its settings. -/
def startingAt (s : Int) (f : Int → Int) (document : Document Expression) : Document Expression :=
  (document.relocate (.renumbering f)).withLine (some s)

/-- Reads a source, the line at position `n` of which has the number `number n`. -/
def numberedBy (number : Nat → Int) (fs : FileSystem) (overrides : Overrides) (source : Text) :
    Except SyntaxError (Document Expression) :=
  match Line.numberedBy number overrides.filename .fresh 0 (PhysicalLine.ofSource source) with
  | .error e => .error (e.inFile overrides.filename)
  | .ok lines => (ofLines (σ := Unit) (.standard fs) overrides lines |>.run ()).1

/-- Another numbering of the lines moves what is read from them. -/
theorem numberedBy_moved {number number' : Nat → Int} {f : Int → Int}
    (h : ∀ n < (PhysicalLine.ofSource source).length, f (number n) = number' n) :
    numberedBy number' fs overrides source =
      moved (.renumbering f) (.relocate (.renumbering f)) (numberedBy number fs overrides source) := by
  have hlines := Line.numberedBy_moved overrides.filename .fresh 0
    fun n _ hlt => h n (by rwa [Nat.zero_add] at hlt)
  unfold numberedBy
  rw [hlines]
  cases Line.numberedBy number overrides.filename .fresh 0 (PhysicalLine.ofSource source) with
  | error e => rfl
  | ok lines => exact congrArg Prod.fst (ofLines_moves (σ := Unit) fs overrides lines ())

/-! ### Settings -/

/-- Nodes that are put under settings with another starting line. -/
theorem outcome_withLine (nodes : Parsing Unit (List (Node Expression))) (options : Options)
    (h : SyntaxError → SyntaxError) (line : Option Int) :
    (Parsing.outcome (ExceptT.adapt h
        (nodes >>= fun nodes => pure ⟨nodes, { options with line := line }⟩)) ()).1 =
      (Parsing.outcome (ExceptT.adapt h (nodes >>= fun nodes => pure ⟨nodes, options⟩)) ()).1.map
        (withLine line) := by
  rw [outcome_adapt, outcome_adapt, outcome_bind, outcome_bind]
  obtain ⟨result, state⟩ := nodes.outcome ()
  cases result with
  | error e => rfl
  | ok nodes => rfl

/-- Lines that have their numbers are read without regard to the starting line. -/
theorem ofLines_withLine (fs : FileSystem) (overrides : Overrides) (line : Option Int)
    (lines : List Line) :
    (ofLines (σ := Unit) (.standard fs) { overrides with line := line } lines |>.run ()).1 =
      (ofLines (σ := Unit) (.standard fs) overrides lines |>.run ()).1.map
        (withLine line) := by
  -- the starting line among the settings is only carried along with the nodes
  have hnodes := outcome_withLine
    (do
      let trees ← Line.nest lines 0
      let siblings ← Assembly.forest (.standard fs) overrides.resolve.searchPath true {} trees.1
      siblings.finish)
    overrides.resolve (SyntaxError.inFile overrides.filename) line
  simp only [bind_assoc] at hnodes
  exact hnodes

/-! ### Starting lines -/

/-- A source is read with its lines numbered from the starting line. -/
theorem parse_eq_numberedBy (fs : FileSystem) (overrides : Overrides) (s : Int) (source : Text) :
    parse fs { overrides with line := some s } source =
      (numberedBy (fun n => Number.plus s n) fs overrides source).map
        (withLine (some s)) := by
  unfold numberedBy
  rw [← Line.ofPhysical_eq_numberedBy]
  cases h : Line.ofPhysical overrides.filename s .fresh 0 (PhysicalLine.ofSource source) with
  | ok lines =>
    have hparse : parseWith (σ := Unit) (.standard fs) { overrides with line := some s } source =
        ofLines (.standard fs) { overrides with line := some s } lines := parseWith_eq h
    unfold parse
    rw [hparse]
    exact ofLines_withLine fs overrides (some s) lines
  | error e =>
    have hsource : Line.ofSource source ({ overrides with line := some s } : Overrides).resolve.firstLine
        ({ overrides with line := some s } : Overrides).resolve.filename = .error e := h
    unfold parse parseWith nodes
    dsimp only
    rw [hsource]
    rfl

/-- A source at a starting line is what it is under any other numbering that determines the sums,
moved to these sums. -/
theorem parse_startingAt {number : Nat → Int} {f : Int → Int}
    (h : ∀ n < (PhysicalLine.ofSource source).length, f (number n) = Number.plus s n) :
    parse fs { overrides with line := some s } source =
      moved (.renumbering f) (startingAt s f) (numberedBy number fs overrides source) := by
  rw [parse_eq_numberedBy, numberedBy_moved h]
  cases numberedBy number fs overrides source with
  | error e => rfl
  | ok document => rfl

/-- All sums are exact as long as they are small. -/
theorem plus_shifted {s s' : Int} {count n : Nat} (h : s.natAbs + count ≤ Number.exactBound)
    (h' : s'.natAbs + count ≤ Number.exactBound) (hn : n < count) :
    Number.plus s' n = Number.plus s n + (s' - s) := by
  rw [Number.plus_of_natAbs_le (by omega), Number.plus_of_natAbs_le (by omega)]
  omega

/-- The starting line is a shift, up to rounding. At every starting line a source gives what it
gives with its lines numbered by their positions, each of these replaced by the sum of it and the
starting line. From one starting line to another all numbers are shifted by the difference, if the
sums have it too. -/
theorem parse_shifted (fs : FileSystem) (overrides : Overrides) (source : Text) :
    (∀ s : Int, parse fs { overrides with line := some s } source =
      moved (.renumbering (Number.plus s)) (startingAt s (Number.plus s))
        (numberedBy (fun n => n) fs overrides source)) ∧
    ∀ s s' : Int,
      (∀ n < (PhysicalLine.ofSource source).length,
        Number.plus s' n = Number.plus s n + (s' - s)) →
      parse fs { overrides with line := some s' } source =
        moved (.renumbering (· + (s' - s))) (startingAt s' (· + (s' - s)))
          (parse fs { overrides with line := some s } source) := by
  refine ⟨fun s => parse_startingAt fun _ _ => rfl, fun s s' hsums => ?_⟩
  have hmoved : parse fs { overrides with line := some s' } source =
      moved (.renumbering (· + (s' - s))) (startingAt s' (· + (s' - s)))
        (numberedBy (fun n => Number.plus s n) fs overrides source) :=
    parse_startingAt fun n hn => (hsums n hn).symm
  rw [hmoved, parse_eq_numberedBy fs overrides s]
  cases numberedBy (fun n => Number.plus s n) fs overrides source with
  | error e => rfl
  | ok document => rfl

/-- The theorem for a rule that goes on in a second line, at the two ends of the exact numbers. -/
theorem parse_shifted_of_rule :
    ∃ document : Document Expression,
      parse ⟨['/'], .empty⟩ { line := some 1 } "a,\nb\n  c = 1" = .ok document ∧
      parse ⟨['/'], .empty⟩ { line := some 9007199254740980 } "a,\nb\n  c = 1" =
        .ok (document.startingAt 9007199254740980 (· + 9007199254740979)) ∧
      document.children.map (fun rule => (rule.site.line, rule.children.map (·.site.line))) =
        [(1, [3])] := by
  have hread : (parse ⟨['/'], .empty⟩ { line := some 1 } "a,\nb\n  c = 1").map
      (fun document => document.children.map
        fun rule => (rule.site.line, rule.children.map (·.site.line))) = .ok [(1, [3])] := by
    decide +kernel
  obtain ⟨document, hdocument, hsites⟩ := map_eq_ok.mp hread
  have hshifted := (parse_shifted ⟨['/'], .empty⟩ {} "a,\nb\n  c = 1").2 1 9007199254740980
    fun n hn => plus_shifted (by decide +kernel) (by decide +kernel) hn
  refine ⟨document, hdocument, ?_, hsites⟩
  rw [hshifted, hdocument]
  rfl

/-- Beyond 2 ^ 53 the second lines of two documents can be further apart than the first ones. -/
theorem parse_ne_shifted :
    parse ⟨['/'], .empty⟩ { line := some 9007199254740994 } "a\nb" ≠
      moved (.renumbering (· + 2)) (startingAt 9007199254740994 (· + 2))
        (parse ⟨['/'], .empty⟩ { line := some 9007199254740992 } "a\nb") := by
  intro h
  have hlines := congrArg (Except.map fun document => document.children.map (·.site.line)) h
  revert hlines
  decide +kernel

end Document

end Stylesheet
