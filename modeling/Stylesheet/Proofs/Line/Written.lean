import Mathlib.Data.List.Pairwise
import Mathlib.Data.List.TakeWhile
import Stylesheet.Line.Layout
import Stylesheet.Line.Nesting
import Stylesheet.Proofs.Rounding
import Stylesheet.Proofs.Success

/-!
# The written lines of a source

What a source holds line by line, without a word about indentation, and that neither cutting it into
lines nor nesting these loses or doubles one.

- `WrittenLine.ofSource`: the lines of a source that are not blank, each with its text and its site.
- `map_written_ofSource`: these are the lines that are read from the source, in their order.
- `Line.preorder`: a line and all lines beneath it. `forestPreorder_of_nest` gives back the lines of
  a source from their forest.
-/

namespace Stylesheet

/-- A line of a source as it is written: its text and where it stands. -/
structure WrittenLine where
  text : Text
  site : Site
deriving DecidableEq, Repr

/-- The lines of a source that are not blank. A line that stands `position` lines behind the first
one has the number `Number.plus firstLine position`. -/
def WrittenLine.ofSource (source : Text) (firstLine : Int) (filename : Option Text) :
    List WrittenLine :=
  ((PhysicalLine.ofSource source).zipIdx.filter fun (raw, _) => !raw.isBlank).map
    fun (raw, position) => ⟨raw.content, ⟨Number.plus firstLine position, filename⟩⟩

/-- The numbers of two sites rise from the upper to the lower one, unless both have been rounded. -/
def Site.Precedes (upper lower : Site) : Prop :=
  upper.line ≤ lower.line ∧
    (upper.line.natAbs < Number.exactBound ∨ lower.line.natAbs < Number.exactBound →
      upper.line < lower.line)

namespace WrittenLine

/-- There are as many as lines that are not blank. -/
theorem length_ofSource (source : Text) (firstLine : Int) (filename : Option Text) :
    (ofSource source firstLine filename).length =
      (PhysicalLine.ofSource source).countP (fun raw => !raw.isBlank) := by
  have hfst : (PhysicalLine.ofSource source).zipIdx.map Prod.fst = PhysicalLine.ofSource source :=
    List.zipIdx_map_fst 0 _
  conv => rhs; rw [← hfst]
  rw [ofSource, List.length_map, ← List.countP_eq_length_filter, List.countP_map]
  rfl

theorem pairwise_zipIdx {α : Type} (l : List α) (start : Nat) :
    (l.zipIdx start).Pairwise (fun a b => a.2 < b.2) := by
  induction l generalizing start with
  | nil => exact .nil
  | cons a l ih =>
    rw [List.zipIdx_cons, List.pairwise_cons]
    refine ⟨fun b hb => ?_, ih (start + 1)⟩
    exact List.le_snd_of_mem_zipIdx hb

/-- The lines of a source stand behind each other, blank ones counted. -/
theorem pairwise_ofSource (source : Text) (firstLine : Int) (filename : Option Text) :
    (ofSource source firstLine filename).Pairwise
      fun upper lower => upper.site.Precedes lower.site := by
  rw [ofSource, List.pairwise_map]
  refine ((pairwise_zipIdx _ 0).filter _).imp fun {upper lower} h => ?_
  have hsum : firstLine + upper.2 < firstLine + lower.2 := by omega
  exact ⟨Number.round_mono (Int.le_of_lt hsum), Number.round_lt_round hsum⟩

/-- Every line carries the file of its source. -/
theorem filename_of_mem_ofSource {source : Text} {firstLine : Int} {filename : Option Text}
    {line : WrittenLine} (h : line ∈ ofSource source firstLine filename) :
    line.site.filename = filename := by
  obtain ⟨raw, -, rfl⟩ := List.mem_map.mp h
  rfl

end WrittenLine

namespace Line

/-- A line as it is written. -/
def written (line : Line) : WrittenLine := ⟨line.text, line.site⟩

/-! ## Reading lines -/

/-- The lines that are read are those of the physical lines that are not blank, each with its
number. -/
theorem map_written_ofPhysical {filename : Option Text} {firstLine : Int} {layout : Layout}
    {position : Nat} {raws : List PhysicalLine} {lines : List Line}
    (h : ofPhysical filename firstLine layout position raws = .ok lines) :
    lines.map written =
      ((raws.zipIdx position).filter fun (raw, _) => !raw.isBlank).map
        fun (raw, position) => ⟨raw.content, ⟨Number.plus firstLine position, filename⟩⟩ := by
  induction raws generalizing layout position lines with
  | nil =>
    cases h
    rfl
  | cons raw rest ih =>
    rw [ofPhysical] at h
    rw [List.zipIdx_cons]
    split at h
    · rename_i hblank
      rw [List.filter_cons_of_neg (by simp [hblank])]
      exact ih h
    · rename_i hblank
      dsimp only at h
      split at h
      · cases h
      · rename_i layout depth _
        obtain ⟨below, hbelow, rfl⟩ := map_eq_ok.mp h
        rw [List.filter_cons_of_pos (by simpa using hblank), List.map_cons, List.map_cons, ih hbelow]
        rfl

/-- The lines that are read are the written lines of the source, in their order. -/
theorem map_written_ofSource {source : Text} {firstLine : Int} {filename : Option Text}
    {lines : List Line} (h : ofSource source firstLine filename = .ok lines) :
    lines.map written = WrittenLine.ofSource source firstLine filename :=
  map_written_ofPhysical h

/-- Each line that is read is written in the source. -/
theorem written_of_mem_ofSource {source : Text} {firstLine : Int} {filename : Option Text}
    {lines : List Line} (h : ofSource source firstLine filename = .ok lines) {line : Line}
    (hline : line ∈ lines) : line.written ∈ WrittenLine.ofSource source firstLine filename := by
  rw [← map_written_ofSource h]
  exact List.mem_map_of_mem hline

/-- Lines are read without the lines beneath them, and none is less deep than the first. -/
theorem bare_of_mem_ofPhysical {filename : Option Text} {firstLine : Int} {layout : Layout}
    {position : Nat} {raws : List PhysicalLine} {lines : List Line}
    (h : ofPhysical filename firstLine layout position raws = .ok lines) :
    ∀ line ∈ lines, line.children = [] ∧ 0 ≤ line.depth := by
  induction raws generalizing layout position lines with
  | nil =>
    cases h
    exact fun line hline => absurd hline List.not_mem_nil
  | cons raw rest ih =>
    rw [ofPhysical] at h
    split at h
    · exact ih h
    · dsimp only at h
      split at h
      · cases h
      · obtain ⟨below, hbelow, rfl⟩ := map_eq_ok.mp h
        intro line hline
        rcases List.mem_cons.mp hline with rfl | hline
        · exact ⟨rfl, Int.natCast_nonneg _⟩
        · exact ih hbelow line hline

/-! ## Nesting lines -/

mutual

/-- A line and all lines beneath it, each without its children. -/
def preorder : Line → List Line
  | ⟨text, depth, index, offset, filename, children⟩ =>
    ⟨text, depth, index, offset, filename, []⟩ :: forestPreorder children

/-- All lines of a forest, each without its children. -/
def forestPreorder : List Line → List Line
  | [] => []
  | line :: lines => preorder line ++ forestPreorder lines

end

theorem forestPreorder_append (front back : List Line) :
    forestPreorder (front ++ back) = forestPreorder front ++ forestPreorder back := by
  induction front with
  | nil => rfl
  | cons line front ih =>
    rw [List.cons_append, forestPreorder, forestPreorder, ih, List.append_assoc]

theorem preorder_eq (line : Line) :
    line.preorder = { line with children := [] } :: forestPreorder line.children := by
  cases line
  rfl

theorem bare_eq {line : Line} (h : line.children = []) : { line with children := [] } = line := by
  cases line
  cases h
  rfl

theorem preorder_of_children {line : Line} (h : line.children = []) : line.preorder = [line] := by
  rw [preorder_eq, bare_eq h, h]
  rfl

mutual

/-- The texts of a line and of those beneath it come in preorder. -/
theorem map_text_preorder : ∀ line : Line, line.preorder.map text = line.texts
  | ⟨_, _, _, _, _, children⟩ => by
    rw [preorder, texts, List.map_cons, map_text_forestPreorder children]

theorem map_text_forestPreorder : ∀ lines : List Line,
    (forestPreorder lines).map text = forestTexts lines
  | [] => rfl
  | line :: lines => by
    rw [forestPreorder, forestTexts, List.map_append, map_text_preorder line,
      map_text_forestPreorder lines]

end

/-- Grafting a line without children puts it in front of the others. -/
theorem forestPreorder_graft {line : Line} (h : line.children = []) (trees : List Line) :
    forestPreorder (graft line trees) = line :: forestPreorder trees := by
  have hcut : trees.takeWhile (fun tree => decide (line.depth < tree.depth)) ++
      trees.dropWhile (fun tree => decide (line.depth < tree.depth)) = trees :=
    List.takeWhile_append_dropWhile
  -- the deeper trees at the front go beneath the line, and keep their place in the order
  unfold graft
  split
  · rw [forestPreorder, preorder_of_children h, List.singleton_append]
  · rw [forestPreorder, preorder_eq, List.cons_append, ← forestPreorder_append, hcut, bare_eq h]

/-- Nesting lines keeps each of them, in their order. -/
theorem forestPreorder_forest {lines : List Line} (h : ∀ line ∈ lines, line.children = []) :
    forestPreorder (forest lines) = lines := by
  induction lines with
  | nil => rfl
  | cons line lines ih =>
    obtain ⟨hline, hlines⟩ := List.forall_mem_cons.mp h
    show forestPreorder (graft line (forest lines)) = line :: lines
    rw [forestPreorder_graft hline, ih hlines]

/-! ## The forest of a source -/

/-- The first line of a source is not indented. -/
theorem depth_head_ofPhysical {filename : Option Text} {firstLine : Int} {position : Nat}
    {raws : List PhysicalLine} {line : Line} {lines : List Line}
    (h : ofPhysical filename firstLine .fresh position raws = .ok (line :: lines)) :
    line.depth = 0 := by
  induction raws generalizing position with
  | nil => cases h
  | cons raw rest ih =>
    rw [ofPhysical] at h
    split at h
    · exact ih h
    · dsimp only at h
      split at h
      · cases h
      · rename_i hmeasure
        obtain ⟨_, _, hcons⟩ := map_eq_ok.mp h
        cases hcons
        -- an indentation in front of the first line is a fault
        cases hindent : raw.indentation with
        | nil =>
          rw [hindent] at hmeasure
          cases hmeasure
          rfl
        | cons c t =>
          rw [hindent] at hmeasure
          cases hmeasure

/-- Lines of which none is less deep than the first one, which is not indented. -/
structure Grounded (lines : List Line) : Prop where
  nonneg : ∀ line ∈ lines, 0 ≤ line.depth
  head : ∀ first ∈ lines.head?, first.depth = 0

theorem grounded_of_ofSource {source : Text} {firstLine : Int} {filename : Option Text}
    {lines : List Line} (h : ofSource source firstLine filename = .ok lines) : Grounded lines where
  nonneg line hline := (bare_of_mem_ofPhysical h line hline).2
  head first hfirst := by
    cases lines with
    | nil => cases hfirst
    | cons line rest =>
      cases hfirst
      exact depth_head_ofPhysical h

/-- All lines belong to the run that starts with the first one. -/
theorem Grounded.level_eq {lines : List Line} (h : Grounded lines) : level lines 0 = lines := by
  cases lines with
  | nil => rfl
  | cons first rest =>
    show first :: rest.takeWhile (fun line => decide (first.depth ≤ line.depth)) = first :: rest
    rw [List.takeWhile_eq_self_iff.mpr]
    intro line hline
    rw [h.head first rfl]
    exact decide_eq_true (h.nonneg line (List.mem_cons_of_mem _ hline))

/-- Lines of which the first is flush are one level, which is built or breaks off as a whole. -/
theorem Grounded.nest_eq_ok {lines trees : List Line} {next : Nat} (h : Grounded lines) :
    nest lines 0 = .ok (trees, next) ↔
      overIndented? lines = none ∧ forest lines = trees ∧ lines.length = next := by
  unfold nest
  rw [h.level_eq]
  dsimp only
  cases overIndented? lines with
  | some fault => simp
  | none => simp

/-- The forest of a document has the lines of its source, in their order. -/
theorem forestPreorder_of_nest {source : Text} {firstLine : Int} {filename : Option Text}
    {lines trees : List Line} {next : Nat} (hlines : ofSource source firstLine filename = .ok lines)
    (hnest : nest lines 0 = .ok (trees, next)) : forestPreorder trees = lines := by
  obtain ⟨-, rfl, -⟩ := (grounded_of_ofSource hlines).nest_eq_ok.mp hnest
  exact forestPreorder_forest fun line hline => (bare_of_mem_ofPhysical hlines line hline).1

/-- Each line of the forest is written in the source. -/
theorem written_of_mem_forestPreorder {source : Text} {firstLine : Int} {filename : Option Text}
    {lines trees : List Line} {next : Nat} (hlines : ofSource source firstLine filename = .ok lines)
    (hnest : nest lines 0 = .ok (trees, next)) :
    ∀ each ∈ forestPreorder trees,
      each.written ∈ WrittenLine.ofSource source firstLine filename := by
  rw [forestPreorder_of_nest hlines hnest]
  exact fun each heach => written_of_mem_ofSource hlines heach

end Line

end Stylesheet
