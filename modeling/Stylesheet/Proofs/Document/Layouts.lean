import Stylesheet.Proofs.Document.Moves
import Stylesheet.Proofs.Line.Rendering

/-!
# The layout of a document

What is read from a source does not depend on its layout: it is what is read from its outline, at
the lines and columns where the layout puts it.

- `Document.ofOutline`: the document of an outline, the lines of which are numbered from zero and
  not indented.
- `Rendering.Places`: a relocation puts the lines of an outline where they stand in a rendering.
- `Document.parse_source`: a rendering gives the document of its outline, put there.
- `Document.parse_renderings`: two renderings of an outline.
-/

namespace Stylesheet

/-- The lines of an outline, each with its place in the outline as its number. -/
def Outline.numbered (outline : Outline) (filename : Option Text) : List Line :=
  outline.lines.zipIdx.map fun (line, n) =>
    { text := line.text, depth := line.depth, index := n, filename := filename }

/-- The document that an outline gives, or what is wrong with it. The nodes and errors of its `n`th
line have the number `n`. -/
def Document.ofOutline (fs : FileSystem) (overrides : Overrides) (outline : Outline) :
    Except SyntaxError (Document Expression) :=
  (ofLines (σ := Unit) (.standard fs) overrides (outline.numbered overrides.filename) |>.run ()).1

namespace Rendering

variable {outline : Outline} {rendering : Rendering outline} {firstLine : Int} {ρ : Relocation}

/-- The `n`th line of the outline gets the number of its row, and is shifted behind its
indentation. -/
def Places (rendering : Rendering outline) (firstLine : Int) (ρ : Relocation) : Prop :=
  ∀ (n : Nat) (line : PlainLine) (position : Nat), rendering.placed[n]? = some (line, position) →
    ρ.line n = Number.plus firstLine position ∧ ρ.shift n = line.depth * rendering.width

/-- A relocation that does so. -/
def relocation (rendering : Rendering outline) (firstLine : Int) : Relocation where
  line n := (rendering.placed[n.toNat]?).elim 0 fun (_, position) => Number.plus firstLine position
  shift n := (rendering.placed[n.toNat]?).elim 0 fun (line, _) => line.depth * rendering.width

theorem places_relocation : rendering.Places firstLine (rendering.relocation firstLine) := by
  rintro n line position h
  unfold relocation
  dsimp only
  rw [Int.toNat_natCast, h]
  exact ⟨rfl, rfl⟩

/-- The lines of a rendering are those of the outline, put where they stand. -/
theorem map_line_placed (h : rendering.Places firstLine ρ) (filename : Option Text) :
    rendering.placed.map (rendering.line firstLine filename) =
      (outline.numbered filename).map (.relocate ρ) := by
  apply List.ext_getElem?
  intro n
  unfold Outline.numbered
  rw [← map_fst_placed rendering]
  simp only [List.getElem?_map, List.getElem?_zipIdx]
  cases hn : rendering.placed[n]? with
  | none => rfl
  | some placed =>
    obtain ⟨hline, hshift⟩ := h n placed.1 placed.2 hn
    simp [line, Line.relocate, Line.relocateForest, hline, hshift]

end Rendering

namespace Document

variable {fs : FileSystem} {overrides : Overrides} {outline : Outline} {ρ ρ' : Relocation}

/-- A rendering gives the document of its outline, put where the lines stand in it. -/
theorem parse_source {rendering : Rendering outline}
    (h : rendering.Places overrides.resolve.firstLine ρ) :
    parse fs overrides rendering.source = moved ρ (.relocate ρ) (ofOutline fs overrides outline) := by
  have hlines := rendering.ofSource_source overrides.resolve.firstLine overrides.resolve.filename
  rw [Rendering.map_line_placed h] at hlines
  unfold parse ofOutline
  rw [parseWith_eq hlines]
  have hmoves := ofLines_moves (σ := Unit) (ρ := ρ) fs overrides
    (outline.numbered overrides.resolve.filename) ()
  exact congrArg Prod.fst hmoves

/-- Two renderings of an outline are read alike: both hold the lines of the outline, and what is
read from them is the document of the outline, or the error in it, put where the lines stand in the
one and in the other. -/
theorem parse_renderings (fs : FileSystem) (overrides : Overrides)
    {rendering other : Rendering outline} (h : rendering.Places overrides.resolve.firstLine ρ)
    (h' : other.Places overrides.resolve.firstLine ρ') :
    rendering.HoldsOutline ∧ other.HoldsOutline ∧
      parse fs overrides rendering.source =
        moved ρ (.relocate ρ) (ofOutline fs overrides outline) ∧
      parse fs overrides other.source = moved ρ' (.relocate ρ') (ofOutline fs overrides outline) :=
  ⟨rendering.holdsOutline, other.holdsOutline, parse_source h, parse_source h'⟩

/-- A rule with two selectors, and an attribute beneath it. -/
def ruleOutline : Outline where
  lines := [⟨0, "a,"⟩, ⟨0, "b"⟩, ⟨1, "c = 1"⟩]
  legible := by
    simp only [List.mem_cons, List.not_mem_nil, or_false]
    rintro line (rfl | rfl | rfl) <;> exact ⟨by decide, by decide, by decide, by decide⟩
  unmarked := by decide
  flush := by decide
  step := by decide

def spacedRule : Rendering ruleOutline where
  indent := ' '
  isIndent := by decide
  width := 2
  width_pos := by decide
  lineBreak := .lineFeed
  marked := false
  rows := [⟨some ⟨0, "a,"⟩, ""⟩, ⟨some ⟨0, "b"⟩, ""⟩, ⟨some ⟨1, "c = 1"⟩, ""⟩]
  rows_ne_nil := List.cons_ne_nil _ _
  padded := by decide
  lines_eq := rfl

def tabbedRule : Rendering ruleOutline where
  indent := '\t'
  isIndent := by decide
  width := 1
  width_pos := by decide
  lineBreak := .both
  marked := true
  rows :=
    [⟨none, " \t"⟩, ⟨some ⟨0, "a,"⟩, " "⟩, ⟨some ⟨0, "b"⟩, ""⟩, ⟨none, ""⟩,
      ⟨some ⟨1, "c = 1"⟩, ""⟩]
  rows_ne_nil := List.cons_ne_nil _ _
  padded := by decide
  lines_eq := rfl

/-- The theorem for a rule that is indented by spaces, and by a tab between blank lines. -/
theorem parse_renderings_of_rule :
    ∃ document : Document Expression,
      parse ⟨['/'], .empty⟩ {} "a,\nb\n  c = 1" =
        .ok (document.relocate (spacedRule.relocation 1)) ∧
      parse ⟨['/'], .empty⟩ {} "\uFEFF \t\r\na, \r\nb\r\n\r\n\tc = 1" =
        .ok (document.relocate (tabbedRule.relocation 1)) ∧
      document.children.map (fun rule => (rule.site.line, rule.children.map (·.site.line))) =
        [(0, [2])] ∧
      (spacedRule.relocation 1).line 2 = 3 ∧ (tabbedRule.relocation 1).line 2 = 5 := by
  have hread : (ofOutline ⟨['/'], .empty⟩ {} ruleOutline).map
      (fun document => document.children.map
        fun rule => (rule.site.line, rule.children.map (·.site.line))) = .ok [(0, [2])] := by
    decide +kernel
  obtain ⟨document, hdocument, hsites⟩ := map_eq_ok.mp hread
  have hsource : spacedRule.source = "a,\nb\n  c = 1" := by decide
  have hsource' : tabbedRule.source = "\uFEFF \t\r\na, \r\nb\r\n\r\n\tc = 1" := by decide
  obtain ⟨-, -, hparse, hparse'⟩ := parse_renderings ⟨['/'], .empty⟩ {}
    spacedRule.places_relocation tabbedRule.places_relocation
  rw [hdocument] at hparse hparse'
  rw [hsource] at hparse
  rw [hsource'] at hparse'
  exact ⟨document, hparse, hparse', hsites, by decide, by decide⟩

end Document

end Stylesheet
