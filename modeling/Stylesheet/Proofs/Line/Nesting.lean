import Mathlib.Data.Nat.Find
import Stylesheet.Proofs.Line.Levels

/-!
# The forest of a level

- `Line.LevelEnds`: where the level that starts with a line ends.
- `Line.JumpsAt`: a line is nested by more than one level at once.
  `overIndented?_extract_eq_some_iff` says that the first such line is the one that is reported.
- `Line.nest_exact`: where a level ends, when it cannot be built, and what it is made of.
-/

namespace Stylesheet.Line

variable {lines : List Line} {upper line first : Line} {base levels : Int} {start next i : Nat}

/-! ## The end of a level -/

/-- The level of depth `base` that starts at position `start` has the lines in front of `next`. -/
structure LevelEnds (lines : List Line) (base : Int) (start next : Nat) : Prop where
  start_lt : start < next
  le_length : next ≤ lines.length
  within : ∀ i line, start ≤ i → i < next → lines[i]? = some line → base ≤ line.depth
  behind : ∀ line ∈ lines[next]?, line.depth < base

/-- The lines left of a level are a slice of all lines. -/
theorem remaining_eq_extract (lines : List Line) (base : Int) (start : Nat) :
    remaining lines base start = lines.extract start (levelEnd lines base start) := by
  have hcut := remaining_append_dropWhile lines base start
  rw [List.extract_eq_take_drop, levelEnd, Nat.add_sub_cancel_left, ← hcut, List.take_left]

theorem levelEnd_le_length (h : start ≤ lines.length) :
    levelEnd lines base start ≤ lines.length := by
  have hle := (List.takeWhile_sublist (fun line : Line => decide (base ≤ line.depth))
    (l := lines.drop start)).length_le
  rw [List.length_drop] at hle
  unfold levelEnd remaining
  omega

theorem levelEnds_levelEnd (hfirst : lines[start]? = some first) :
    LevelEnds lines first.depth start (levelEnd lines first.depth start) where
  start_lt := by
    rw [← levelEnd_succ hfirst (Int.le_refl _)]
    exact le_levelEnd lines first.depth (start + 1)
  le_length := levelEnd_le_length (Nat.le_of_lt (List.getElem?_eq_some_iff.mp hfirst).1)
  within i line hstart hnext hline := by
    have hmem : line ∈ remaining lines first.depth start := by
      apply List.mem_of_getElem? (i := i - start)
      rw [remaining_eq_extract, List.extract_eq_take_drop, List.getElem?_take_of_lt (by omega),
        List.getElem?_drop, Nat.add_sub_cancel' hstart]
      exact hline
    exact (mem_remaining hmem).2
  behind line hline := lt_of_getElem?_levelEnd hline

/-! ## Lines that are too deep -/

/-- The line behind position `i` is nested by more than one level at once in the line at `i`. -/
structure JumpsAt (lines : List Line) (i : Nat) (upper line : Line) : Prop where
  upper_eq : lines[i]? = some upper
  line_eq : lines[i + 1]? = some line
  deeper : Number.plus upper.depth 1 < line.depth

/-- Between `start` and `next` the line behind position `i` is the first one that is nested by more
than one level at once. -/
structure FirstJump (lines : List Line) (start next i : Nat) (upper line : Line) : Prop
    extends JumpsAt lines i upper line where
  start_le : start ≤ i
  lt_next : i + 1 < next
  first : ∀ j, start ≤ j → j < i → ∀ upper line, ¬JumpsAt lines j upper line

/-- If some line is too deep, there is a first one. -/
theorem exists_firstJump (hstart : start ≤ i) (hnext : i + 1 < next) (h : JumpsAt lines i upper line) :
    ∃ j upper line, FirstJump lines start next j upper line := by
  classical
  have hexists : ∃ j, start ≤ j ∧ ∃ upper line, JumpsAt lines j upper line :=
    ⟨i, hstart, upper, line, h⟩
  obtain ⟨hle, above, below, hjump⟩ := Nat.find_spec hexists
  have hmin : Nat.find hexists ≤ i := Nat.find_min' hexists ⟨hstart, upper, line, h⟩
  refine ⟨Nat.find hexists, above, below, hjump, hle, by omega, fun j hj hlt one other hother => ?_⟩
  exact Nat.find_min hexists hlt ⟨hj, one, other, hother⟩

/-- Behind a line that is not followed by one that is too deep, the first such line is the same. -/
theorem firstJump_succ_iff (h : ∀ upper line, ¬JumpsAt lines start upper line) :
    FirstJump lines (start + 1) next i upper line ↔ FirstJump lines start next i upper line := by
  constructor
  · rintro ⟨hjump, hstart, hnext, hfirst⟩
    refine ⟨hjump, by omega, hnext, fun j hj hlt => ?_⟩
    rcases Nat.eq_or_lt_of_le hj with rfl | hj
    · exact h
    · exact hfirst j hj hlt
  · rintro ⟨hjump, hstart, hnext, hfirst⟩
    refine ⟨hjump, ?_, hnext, fun j hj hlt => hfirst j (by omega) hlt⟩
    rcases Nat.eq_or_lt_of_le hstart with rfl | hstart
    · exact absurd hjump (h upper line)
    · exact hstart

theorem extract_eq_cons (h : lines[start]? = some line) (hlt : start < next) :
    lines.extract start next = line :: lines.extract (start + 1) next := by
  rw [List.extract_eq_take_drop, List.extract_eq_take_drop, List.drop_eq_getElem?_toList_append, h,
    show next - start = next - (start + 1) + 1 by omega]
  rfl

theorem overIndented?_extract_eq_none (h : next ≤ start + 1) :
    overIndented? (lines.extract start next) = none := by
  have hlength : (lines.extract start next).length ≤ 1 := by
    rw [List.extract_eq_take_drop, List.length_take]
    omega
  match lines.extract start next, hlength with
  | [], _ => rfl
  | [_], _ => rfl

/-- The check goes from each line to the next. -/
theorem overIndented?_extract (hupper : lines[start]? = some upper)
    (hline : lines[start + 1]? = some line) (hlt : start + 1 < next) :
    overIndented? (lines.extract start next) =
      if Number.plus upper.depth 1 < line.depth then some (line, line.depth - upper.depth)
      else overIndented? (lines.extract (start + 1) next) := by
  rw [extract_eq_cons hupper (by omega), extract_eq_cons hline hlt, overIndented?]

/-- The first line that is nested by more than one level at once is the one that is reported. -/
theorem overIndented?_extract_eq_some_iff (hnext : next ≤ lines.length) :
    overIndented? (lines.extract start next) = some (line, levels) ↔
      ∃ i upper, FirstJump lines start next i upper line ∧ levels = line.depth - upper.depth := by
  induction hlength : next - start using Nat.strong_induction_on generalizing start with
  | _ length ih =>
    by_cases hlt : start + 1 < next
    case neg =>
      -- no line is left that could be compared with the one in front of it
      rw [overIndented?_extract_eq_none (by omega)]
      refine iff_of_false (by simp) ?_
      rintro ⟨i, upper, hfirst, -⟩
      have hstart := hfirst.start_le
      have hnext := hfirst.lt_next
      omega
    case pos =>
      have habove : lines[start]? = some lines[start] := List.getElem?_eq_getElem (by omega)
      have hbelow : lines[start + 1]? = some lines[start + 1] := List.getElem?_eq_getElem (by omega)
      rw [overIndented?_extract habove hbelow hlt]
      by_cases hjump : Number.plus lines[start].depth 1 < lines[start + 1].depth
      case pos =>
        rw [if_pos hjump]
        have hat : JumpsAt lines start lines[start] lines[start + 1] := ⟨habove, hbelow, hjump⟩
        constructor
        · rintro ⟨⟩
          exact ⟨start, lines[start], ⟨hat, Nat.le_refl start, hlt, fun j hj => by omega⟩, rfl⟩
        · rintro ⟨i, upper, ⟨hother, hstart, -, hfirst⟩, rfl⟩
          rcases Nat.eq_or_lt_of_le hstart with rfl | hstart
          · cases habove.symm.trans hother.upper_eq
            cases hbelow.symm.trans hother.line_eq
            rfl
          · exact absurd hat (hfirst start (Nat.le_refl start) hstart _ _)
      case neg =>
        have hnone : ∀ upper line, ¬JumpsAt lines start upper line := by
          rintro upper line ⟨hupper, hline, hdeeper⟩
          cases habove.symm.trans hupper
          cases hbelow.symm.trans hline
          exact hjump hdeeper
        rw [if_neg hjump, ih (next - (start + 1)) (by omega) rfl]
        simp only [firstJump_succ_iff hnone]

/-- A level passes the check just if no two neighbours in it jump. -/
theorem overIndented?_extract_eq_none_iff (hnext : next ≤ lines.length) :
    overIndented? (lines.extract start next) = none ↔
      ∀ i upper line, start ≤ i → i + 1 < next → ¬JumpsAt lines i upper line := by
  constructor
  · intro hnone i upper line hstart hlt hjump
    obtain ⟨j, above, below, hfirst⟩ := exists_firstJump hstart hlt hjump
    have hsome := (overIndented?_extract_eq_some_iff hnext).mpr ⟨j, above, hfirst, rfl⟩
    rw [hnone] at hsome
    cases hsome
  · intro h
    rw [Option.eq_none_iff_forall_ne_some]
    rintro ⟨line, levels⟩ hsome
    obtain ⟨i, upper, hfirst, -⟩ := (overIndented?_extract_eq_some_iff hnext).mp hsome
    exact h i upper line hfirst.start_le hfirst.lt_next hfirst.toJumpsAt

/-! ## Levels as a whole -/

/-- Nesting at a line builds the level that starts there. -/
theorem nest_eq (hfirst : lines[start]? = some first) :
    nest lines start = levelled [] (lines.extract start (levelEnd lines first.depth start))
      (levelEnd lines first.depth start) := by
  rw [nest_eq_levelled, level_eq_remaining hfirst, ← remaining_eq_extract]
  rfl

/-- All lines of a source belong to the level of the first one. -/
theorem levelEnd_of_ofSource {source : Text} {firstLine : Int} {filename : Option Text}
    (hfirst : lines[0]? = some first) (h : ofSource source firstLine filename = .ok lines) :
    levelEnd lines first.depth 0 = lines.length := by
  rw [levelEnd, ← level_eq_remaining hfirst, (grounded_of_ofSource h).level_eq, Nat.zero_add]

section

variable (hfirst : lines[start]? = some first) (hbare : ∀ line ∈ lines, line.children = [])
  (hround : ∀ line ∈ lines, Number.round line.depth = line.depth)

include hfirst in
/-- A level cannot be built if a line is too deep, and the first such line is to blame. -/
theorem nest_eq_error_iff {e : SyntaxError} :
    nest lines start = .error e ↔
      ∃ i upper line, FirstJump lines start (levelEnd lines first.depth start) i upper line ∧
        e = line.fault (.overIndented (line.depth - upper.depth)) := by
  have hlength := (levelEnds_levelEnd hfirst).le_length
  rw [nest_eq hfirst, levelled_eq_error_iff]
  simp only [overIndented?_extract_eq_some_iff hlength]
  constructor
  · rintro ⟨line, levels, ⟨i, upper, hjump, rfl⟩, rfl⟩
    exact ⟨i, upper, line, hjump, rfl⟩
  · rintro ⟨i, upper, line, hjump, rfl⟩
    exact ⟨line, _, ⟨i, upper, hjump, rfl⟩, rfl⟩

include hfirst hbare hround in
/-- If no line is too deep, the trees are the stepped ones that have the lines of the level. -/
theorem nest_eq_ok_iff {trees : List Line} {after : Nat} :
    nest lines start = .ok (trees, after) ↔
      (∀ i upper line, start ≤ i → i + 1 < levelEnd lines first.depth start →
        ¬JumpsAt lines i upper line) ∧
      after = levelEnd lines first.depth start ∧
      forestPreorder trees = lines.extract start (levelEnd lines first.depth start) ∧
      ∀ root ∈ trees, root.depth = first.depth ∧ root.Stepped := by
  have hlength := (levelEnds_levelEnd hfirst).le_length
  rw [nest_eq hfirst, levelled_eq_ok_iff, overIndented?_extract_eq_none_iff hlength, List.nil_append]
  refine and_congr_right fun hnone => ?_
  rw [← remaining_eq_extract]
  have hown : ∀ line ∈ remaining lines first.depth start, line.children = [] :=
    fun line hline => hbare line (mem_remaining hline).1
  constructor
  · rintro ⟨rfl, rfl⟩
    refine ⟨rfl, forestPreorder_forest hown, fun root hroot => ⟨?_, ?_⟩⟩
    · exact depth_of_mem_forest hown (head?_remaining hfirst)
        (fun line hline => (mem_remaining hline).2) hroot
    · refine stepped_forest hown (fun line hline => hround line (mem_remaining hline).1) ?_ root hroot
      rw [remaining_eq_extract]
      exact (overIndented?_extract_eq_none_iff hlength).mpr hnone
  · -- stepped trees are determined by their lines
    rintro ⟨rfl, hpreorder, hroots⟩
    rw [← hpreorder, forest_forestPreorder hroots]
    exact ⟨rfl, rfl⟩

include hfirst hbare hround in
/-- The loop ends, and in one way only. -/
theorem builds_iff {outcome : Except SyntaxError (List Line × Nat)} :
    Builds lines first.depth [] start outcome ↔ outcome = nest lines start := by
  have hsettles := (settles hbare hround start).builds hfirst
  rw [remaining_eq_extract, ← nest_eq hfirst] at hsettles
  constructor
  · exact fun h => h.unique hsettles
  · rintro rfl
    exact hsettles

end

/-- The level that starts with a line ends at the first line that is less deep, and with the last
line of a source if it starts with the first one. It cannot be built if a line of it is nested by
more than one level at once, and the first such line is to blame. Otherwise its lines are those of
the trees, in their order; the trees have the depth of the level, and in them each line is one level
deeper than the one it is nested in. The loop ends with that, and with nothing else. -/
theorem nest_exact (hfirst : lines[start]? = some first)
    (hbare : ∀ line ∈ lines, line.children = []) :
    ∃ next, LevelEnds lines first.depth start next ∧
      (start = 0 → ∀ source firstLine filename,
        ofSource source firstLine filename = .ok lines → next = lines.length) ∧
      (∀ e, nest lines start = .error e ↔
        ∃ i upper line, FirstJump lines start next i upper line ∧
          e = line.fault (.overIndented (line.depth - upper.depth))) ∧
      ((∀ line ∈ lines, Number.round line.depth = line.depth) →
        (∀ trees after, nest lines start = .ok (trees, after) ↔
          (∀ i upper line, start ≤ i → i + 1 < next → ¬JumpsAt lines i upper line) ∧ after = next ∧
            forestPreorder trees = lines.extract start next ∧
            ∀ root ∈ trees, root.depth = first.depth ∧ root.Stepped) ∧
        ∀ outcome, Builds lines first.depth [] start outcome ↔ outcome = nest lines start) := by
  refine ⟨levelEnd lines first.depth start, levelEnds_levelEnd hfirst, ?_, ?_, fun hround => ⟨?_, ?_⟩⟩
  · rintro rfl source firstLine filename h
    exact levelEnd_of_ofSource hfirst h
  · exact fun e => nest_eq_error_iff hfirst
  · exact fun trees after => nest_eq_ok_iff hfirst hbare hround
  · exact fun outcome => builds_iff hfirst hbare hround

/-- Lines that go down two levels and come up again, in front of one that ends the level. -/
def winding : List Line :=
  [⟨"a", 1, 1, 0, none, []⟩, ⟨"b", 2, 2, 0, none, []⟩, ⟨"c", 3, 3, 0, none, []⟩,
    ⟨"d", 2, 4, 0, none, []⟩, ⟨"e", 1, 5, 0, none, []⟩, ⟨"f", 0, 6, 0, none, []⟩]

theorem builds_winding :
    Builds winding 1 [] 0 (.ok ([⟨"a", 1, 1, 0, none,
      [⟨"b", 2, 2, 0, none, [⟨"c", 3, 3, 0, none, []⟩]⟩, ⟨"d", 2, 4, 0, none, []⟩]⟩,
      ⟨"e", 1, 5, 0, none, []⟩], 5)) := by
  have hfirst : winding[0]? = some ⟨"a", 1, 1, 0, none, []⟩ := rfl
  obtain ⟨next, -, -, -, hlevel⟩ := nest_exact hfirst (by decide)
  exact ((hlevel (by decide)).2 _).mpr rfl

/-- Beyond the numbers up to which sums are exact, a line that is two levels deeper is nested. -/
theorem nest_rounded :
    (9007199254740994 : Int) + 1 < 9007199254740996 ∧
    nest [⟨"a", 9007199254740994, 1, 0, none, []⟩, ⟨"b", 9007199254740996, 2, 0, none, []⟩] 0 =
      .ok ([⟨"a", 9007199254740994, 1, 0, none, [⟨"b", 9007199254740996, 2, 0, none, []⟩]⟩], 2) := by
  have hsum : ¬Number.plus 9007199254740994 1 < 9007199254740996 := by decide +kernel
  refine ⟨by decide, ?_⟩
  simp [nest, level, overIndented?, forest, graft, hsum]

end Stylesheet.Line
