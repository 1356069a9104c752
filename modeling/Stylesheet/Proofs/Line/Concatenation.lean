import Stylesheet.Proofs.Line.Layout
import Stylesheet.Proofs.Line.Written
import Stylesheet.Proofs.Text.Pieces

/-!
# The lines of two sources behind each other

- `PhysicalLine.ofSource_append_cons`: a line feed between two sources keeps their physical lines
  apart.
- `Line.ofSource_append_cons`: the lines of two sources with the same unit are read one after
  another.
- `Line.nest_append`: their forests stand next to each other.
-/

namespace Stylesheet

/-! ## Physical lines -/

namespace PhysicalLine

theorem texts_append_cons {upper lower : Text} (hend : upper.getLast? ≠ some '\r')
    (hstart : lower.head? ≠ some '\uFEFF') :
    texts (upper ++ '\n' :: lower) = texts upper ++ texts lower := by
  unfold texts
  rw [if_neg hstart]
  cases upper with
  | nil =>
    rw [List.nil_append, if_neg (by simp), Text.unifyBreaks_cons (by decide)]
    exact Text.pieces_append_cons '\n' [] _
  | cons c upper =>
    rw [List.cons_append, List.head?_cons, List.head?_cons]
    split
    · have hend : upper.getLast? ≠ some '\r' := by
        intro hlast
        cases upper with
        | nil => cases hlast
        | cons d upper => exact hend (by simpa using hlast)
      rw [List.tail_cons, List.tail_cons, Text.unifyBreaks_append_cons hend,
        Text.pieces_append_cons]
    · rw [← List.cons_append, Text.unifyBreaks_append_cons hend, Text.pieces_append_cons]

/-- A line feed between two sources keeps their lines apart, unless it is taken together with a
carriage return in front of it. -/
theorem ofSource_append_cons {upper lower : Text} (hend : upper.getLast? ≠ some '\r')
    (hstart : lower.head? ≠ some '\uFEFF') :
    ofSource (upper ++ '\n' :: lower) = ofSource upper ++ ofSource lower := by
  unfold ofSource
  rw [texts_append_cons hend hstart, List.map_append]

end PhysicalLine

namespace Line

/-! ## Lines that are not blank -/

/-- The lines of two sources with the same unit of indentation are read one after another. -/
theorem ofSource_append_cons {upper lower : Text} {firstLine : Int} {filename : Option Text}
    {front back : List Line} (hend : upper.getLast? ≠ some '\r')
    (hstart : lower.head? ≠ some '\uFEFF')
    (hunit : ∀ unit, PhysicalLine.unit? (PhysicalLine.ofSource upper) = some unit →
      ∀ own, PhysicalLine.unit? (PhysicalLine.ofSource lower) = some own → unit = own)
    (hfront : ofSource upper firstLine filename = .ok front)
    (hback : ofSource lower (firstLine + (PhysicalLine.ofSource upper).length) filename = .ok back) :
    ofSource (upper ++ '\n' :: lower) firstLine filename = .ok (front ++ back) := by
  unfold ofSource at hfront hback ⊢
  rw [PhysicalLine.ofSource_append_cons hend hstart]
  obtain ⟨last, hlast, happend⟩ := ofPhysical_append hfront
  rw [ofPhysical_shift] at hback
  rw [happend, Nat.zero_add]
  have hread : ofPhysical filename firstLine last _ _ = _ :=
    ofPhysical_of_unit rfl (fun _ => rfl) (fun unit h => hunit unit (hlast.symm.trans h)) hback
  rw [Nat.add_zero] at hread
  rw [hread]
  rfl

/-! ## Nesting -/

variable {upper lower : List Line}

theorem overIndented?_append
    (h : ∀ last ∈ upper.getLast?, ∀ first ∈ lower.head?, first.depth ≤ Number.plus last.depth 1) :
    overIndented? (upper ++ lower) = (overIndented? upper).or (overIndented? lower) := by
  induction upper with
  | nil => rfl
  | cons first rest ih =>
    cases rest with
    | nil =>
      cases lower with
      | nil => rfl
      | cons second lower =>
        have hseam := h first rfl second rfl
        show overIndented? (first :: second :: lower) = overIndented? (second :: lower)
        rw [overIndented?, if_neg (Int.not_lt.mpr hseam)]
    | cons second rest =>
      have hrest := ih fun last hlast => h last (by simpa using hlast)
      rw [List.cons_append, List.cons_append, overIndented?, overIndented?]
      split
      · rfl
      · exact hrest

/-- The deeper trees in front end where a tree is no deeper. -/
theorem deeper_append {line : Line} {others : List Line}
    (h : ∀ first ∈ others.head?, first.depth ≤ line.depth) (trees : List Line) :
    (trees ++ others).takeWhile (fun tree => decide (line.depth < tree.depth)) =
        trees.takeWhile (fun tree => decide (line.depth < tree.depth)) ∧
      (trees ++ others).dropWhile (fun tree => decide (line.depth < tree.depth)) =
        trees.dropWhile (fun tree => decide (line.depth < tree.depth)) ++ others := by
  induction trees with
  | nil =>
    cases others with
    | nil => exact ⟨rfl, rfl⟩
    | cons first rest =>
      have hstop : ¬line.depth < first.depth := Int.not_lt.mpr (h first rfl)
      simp [hstop]
  | cons tree trees ih => by_cases hdeeper : line.depth < tree.depth <;> simp [hdeeper, ih]

/-- A line takes nothing from behind a tree that is no deeper. -/
theorem graft_append {line : Line} {others : List Line}
    (h : ∀ first ∈ others.head?, first.depth ≤ line.depth) (trees : List Line) :
    graft line (trees ++ others) = graft line trees ++ others := by
  obtain ⟨htake, hdrop⟩ := deeper_append h trees
  unfold graft
  rw [htake, hdrop]
  split <;> rfl

theorem head?_forest (lines : List Line) :
    (forest lines).head?.map depth = lines.head?.map depth := by
  cases lines with
  | nil => rfl
  | cons first rest =>
    show (graft first (forest rest)).head?.map depth = some first.depth
    unfold graft
    split <;> rfl

/-- Lines behind others that are all at least as deep as the first of them have a forest of their
own. -/
theorem forest_append (h : ∀ first ∈ lower.head?, ∀ line ∈ upper, first.depth ≤ line.depth) :
    forest (upper ++ lower) = forest upper ++ forest lower := by
  induction upper with
  | nil => rfl
  | cons line upper ih =>
    show graft line (forest (upper ++ lower)) = graft line (forest upper) ++ forest lower
    rw [ih fun first hfirst other hother => h first hfirst other (List.mem_cons_of_mem _ hother)]
    apply graft_append
    intro first hfirst
    have hdepth := head?_forest lower
    rw [Option.mem_def.mp hfirst] at hdepth
    obtain ⟨root, hroot, heq⟩ := Option.map_eq_some_iff.mp hdepth.symm
    have hle := h root hroot line List.mem_cons_self
    omega

theorem Grounded.append (hupper : Grounded upper) (hlower : Grounded lower) :
    Grounded (upper ++ lower) where
  nonneg line hline := by
    rcases List.mem_append.mp hline with hline | hline
    · exact hupper.nonneg line hline
    · exact hlower.nonneg line hline
  head first hfirst := by
    cases upper with
    | nil => exact hlower.head first hfirst
    | cons line rest => exact hupper.head first hfirst

/-- Lines whose depths start again from none have a forest of their own. -/
theorem nest_append {trees others : List Line} {next after : Nat} (hupper : Grounded upper)
    (hlower : Grounded lower) (htrees : nest upper 0 = .ok (trees, next))
    (hothers : nest lower 0 = .ok (others, after)) :
    nest (upper ++ lower) 0 = .ok (trees ++ others, next + after) := by
  obtain ⟨hover, rfl, rfl⟩ := hupper.nest_eq_ok.mp htrees
  obtain ⟨hover', rfl, rfl⟩ := hlower.nest_eq_ok.mp hothers
  refine (hupper.append hlower).nest_eq_ok.mpr ⟨?_, ?_, List.length_append⟩
  · rw [overIndented?_append, hover, hover']
    · rfl
    · intro last hlast first hfirst
      have hdepth := hupper.nonneg last (List.mem_of_getLast? hlast)
      rw [hlower.head first hfirst]
      -- one more than a depth that is not negative is rounded to no less than zero
      have hround : Number.round 0 ≤ Number.round (last.depth + 1) := Number.round_mono (by omega)
      exact hround
  · apply forest_append
    intro first hfirst line hline
    rw [hlower.head first hfirst]
    exact hupper.nonneg line hline

end Line

end Stylesheet
