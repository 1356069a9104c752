import Mathlib.Data.List.TakeWhile
import Stylesheet.Line.Layout
import Stylesheet.Proofs.Success

/-!
# Measuring indentation

- `Layout.unit?`: the unit that the lines read so far have fixed. `Layout.unit?_of_measure` says
  that the first indentation fixes it, and no other one changes it.
- `Layout.measure_repeated`: a unit written `n` times measures `n`.
- `PhysicalLine.unit?`: the unit of a run of physical lines. `PhysicalLine.isBlank_ofText` says
  which lines are blank.
- `Line.ofPhysical_append`: lines are read one after another, and behind some of them the layout is
  as the unit of these says.
- `Line.ofPhysical_of_unit`: lines are read the same where their own unit is already fixed.
-/

namespace Stylesheet

/-! ## Units -/

namespace Indentation

/-- The length of a repeated unit is a multiple of its own. -/
theorem length_repeated (unit : Text) (n : Nat) : (repeated unit n).length = n * unit.length := by
  unfold repeated
  rw [List.length_flatten, List.map_replicate, List.sum_replicate_nat]

theorem repeated_one (unit : Text) : repeated unit 1 = unit := List.append_nil unit

end Indentation

namespace Layout

/-- The unit that the lines read so far have fixed. -/
def unit? : Layout → Option Text
  | .measured unit => some unit
  | .fresh | .flush => none

variable {layout next : Layout} {indentation unit : Text} {depth : Nat}

/-- A unit written `n` times measures `n`. -/
theorem measure_repeated (h : unit ≠ []) (n : Nat) :
    measure (.measured unit) (Indentation.repeated unit n) = .ok (.measured unit, n) := by
  have hpos : 0 < unit.length := List.length_pos_iff.mpr h
  have hdepth : (Indentation.repeated unit n).length / unit.length = n := by
    rw [Indentation.length_repeated, Nat.mul_div_cancel n hpos]
  show (if Indentation.repeated unit _ = _ then _ else _) = _
  rw [hdepth, if_pos rfl]

/-- A line that is not indented measures nothing, and the unit stays as it is. -/
theorem measure_nil (layout : Layout) :
    ∃ next, layout.measure [] = .ok (next, 0) ∧ next.unit? = layout.unit? ∧ next ≠ .fresh := by
  cases layout with
  | fresh => exact ⟨.flush, rfl, rfl, by decide⟩
  | flush => exact ⟨.flush, rfl, rfl, by decide⟩
  | measured unit =>
    refine ⟨.measured unit, ?_, rfl, by simp⟩
    have hdepth : ([] : Text).length / unit.length = 0 := Nat.zero_div _
    show (if Indentation.repeated unit _ = _ then _ else _) = _
    rw [hdepth]
    rfl

/-- The first indentation is the unit. -/
theorem measure_flush (h : measure .flush indentation = .ok (next, depth)) (hne : indentation ≠ []) :
    next = .measured indentation ∧ depth = 1 := by
  cases indentation with
  | nil => exact absurd rfl hne
  | cons c t =>
    dsimp only [measure] at h
    split at h
    · cases h
    · cases h
      exact ⟨rfl, rfl⟩

/-- The first indentation fixes the unit, and no other one changes it. -/
theorem unit?_of_measure (h : layout.measure indentation = .ok (next, depth)) :
    next.unit? = layout.unit?.or (if indentation = [] then none else some indentation) := by
  -- a fixed unit stays, an indented first line fails, and behind flush lines the indentation is the
  -- unit
  cases layout with
  | measured unit =>
    dsimp only [measure] at h
    split at h
    · cases h
      rfl
    · cases h
  | fresh =>
    cases indentation with
    | nil =>
      cases h
      rfl
    | cons c t => cases h
  | flush =>
    by_cases hne : indentation = []
    · subst hne
      cases h
      rfl
    · obtain ⟨rfl, -⟩ := measure_flush h hne
      rw [if_neg hne]
      rfl

/-- An indentation measures the same where it is the unit itself as where none is fixed. -/
theorem measure_of_unit {last : Layout} (hlayout : layout.unit? = none)
    (h : layout.measure indentation = .ok (next, depth)) (hne : indentation ≠ [])
    (hfresh : last = .fresh → layout = .fresh)
    (hlast : ∀ unit, last.unit? = some unit → unit = indentation) :
    last.measure indentation = .ok (next, depth) := by
  cases layout with
  | measured unit => cases hlayout
  | fresh =>
    cases indentation with
    | nil => exact absurd rfl hne
    | cons c t => cases h
  | flush =>
    cases last with
    | fresh => cases hfresh rfl
    | flush => exact h
    | measured unit =>
      obtain rfl := hlast unit rfl
      obtain ⟨rfl, rfl⟩ := measure_flush h hne
      have hone := measure_repeated hne 1
      rw [Indentation.repeated_one] at hone
      exact hone

end Layout

namespace PhysicalLine

/-- The first indentation among lines that are not blank. -/
def unit? (raws : List PhysicalLine) : Option Text :=
  (raws.find? fun raw => !raw.isBlank && !raw.indentation.isEmpty).map indentation

variable {raw : PhysicalLine} {raws : List PhysicalLine}

theorem unit?_cons_of_blank (h : raw.isBlank = true) : unit? (raw :: raws) = unit? raws := by
  unfold unit?
  rw [List.find?_cons_of_neg]
  simp [h]

theorem unit?_cons (h : ¬raw.isBlank = true) :
    unit? (raw :: raws) =
      (if raw.indentation = [] then none else some raw.indentation).or (unit? raws) := by
  unfold unit?
  split
  · rw [List.find?_cons_of_neg]
    · rfl
    · simp [*]
  · rw [List.find?_cons_of_pos]
    · rfl
    · simp [*]

theorem isPadding_of_isIndent {c : Char} (h : Indentation.isIndent c = true) :
    Indentation.isPadding c = true := by
  simp only [Indentation.isIndent, Bool.or_eq_true] at h
  rcases h with h | h <;> simp [Indentation.isPadding, h]

/-- A line holds nothing just if it is padding. -/
theorem isBlank_ofText (raw : Text) : (ofText raw).isBlank = raw.all Indentation.isPadding := by
  rw [Bool.eq_iff_iff, isBlank, ofText, Text.dropEndWhile, List.isEmpty_reverse, List.isEmpty_iff,
    List.dropWhile_eq_nil_iff, List.all_eq_true]
  constructor
  · intro h c hc
    rw [← List.takeWhile_append_dropWhile (p := Indentation.isIndent) (l := raw)] at hc
    rcases List.mem_append.mp hc with hc | hc
    · exact isPadding_of_isIndent (List.mem_takeWhile_imp hc)
    · exact h c (List.mem_reverse.mpr hc)
  · intro h c hc
    exact h c ((List.dropWhile_sublist _).subset (List.mem_reverse.mp hc))

end PhysicalLine

/-! ## Runs of lines -/

namespace Line

variable {filename : Option Text} {firstLine : Int} {layout : Layout} {position : Nat}

/-- Lines are read one after another; behind the first ones, the unit is that of the layout they
were read in, or else their own. -/
theorem ofPhysical_append {front : List PhysicalLine} {upper : List Line}
    (h : ofPhysical filename firstLine layout position front = .ok upper) :
    ∃ last, last.unit? = layout.unit?.or (PhysicalLine.unit? front) ∧
      ∀ back, ofPhysical filename firstLine layout position (front ++ back) =
        (ofPhysical filename firstLine last (position + front.length) back).map (upper ++ ·) := by
  induction front generalizing layout position upper with
  | nil =>
    cases h
    refine ⟨layout, (Option.or_none).symm, fun back => ?_⟩
    rw [List.nil_append, List.length_nil, Nat.add_zero]
    cases ofPhysical filename firstLine layout position back <;> rfl
  | cons raw rest ih =>
    rw [ofPhysical] at h
    split at h
    · -- a blank line moves the position on and leaves the layout as it is
      rename_i hblank
      obtain ⟨last, hlast, hback⟩ := ih h
      refine ⟨last, ?_, fun back => ?_⟩
      · rw [PhysicalLine.unit?_cons_of_blank hblank, hlast]
      · rw [List.cons_append, ofPhysical, if_pos hblank, hback, List.length_cons]
        congr 2
        omega
    · rename_i hblank
      dsimp only at h
      split at h
      · cases h
      · rename_i next depth hmeasure
        obtain ⟨below, hbelow, rfl⟩ := map_eq_ok.mp h
        obtain ⟨last, hlast, hback⟩ := ih hbelow
        refine ⟨last, ?_, fun back => ?_⟩
        · rw [PhysicalLine.unit?_cons hblank, hlast, Layout.unit?_of_measure hmeasure,
            Option.or_assoc]
        · rw [List.cons_append, ofPhysical, if_neg hblank]
          dsimp only
          rw [hmeasure]
          dsimp only
          rw [hback, List.length_cons]
          have hposition : position + 1 + rest.length = position + (rest.length + 1) := by omega
          rw [hposition]
          cases ofPhysical filename firstLine last (position + (rest.length + 1)) back <;> rfl

/-- A run of lines is numbered from where it starts. -/
theorem ofPhysical_shift (n : Nat) (raws : List PhysicalLine) :
    ofPhysical filename (firstLine + n) layout position raws =
      ofPhysical filename firstLine layout (n + position) raws := by
  induction raws generalizing layout position with
  | nil => rfl
  | cons raw rest ih =>
    have hindex : Number.plus (firstLine + n) position = Number.plus firstLine ↑(n + position) := by
      unfold Number.plus
      rw [Int.natCast_add, Int.add_assoc]
    rw [ofPhysical, ofPhysical, hindex]
    simp only [ih, Nat.add_assoc]

/-- What is read where no unit is fixed is read as well where the lines' own unit is. -/
theorem ofPhysical_of_unit {last : Layout} {raws : List PhysicalLine} {lines : List Line}
    (hlayout : layout.unit? = none) (hfresh : last = .fresh → layout = .fresh)
    (hlast : ∀ unit, last.unit? = some unit → ∀ own, PhysicalLine.unit? raws = some own → unit = own)
    (h : ofPhysical filename firstLine layout position raws = .ok lines) :
    ofPhysical filename firstLine last position raws = .ok lines := by
  induction raws generalizing layout last position lines with
  | nil => exact h
  | cons raw rest ih =>
    rw [ofPhysical] at h ⊢
    split at h
    · rename_i hblank
      rw [if_pos hblank]
      rw [PhysicalLine.unit?_cons_of_blank hblank] at hlast
      exact ih hlayout hfresh hlast h
    · rename_i hblank
      rw [if_neg hblank]
      rw [PhysicalLine.unit?_cons hblank] at hlast
      dsimp only at h ⊢
      split at h
      · cases h
      · rename_i next depth hmeasure
        obtain ⟨below, hbelow, rfl⟩ := map_eq_ok.mp h
        -- a flush line fixes nothing in either layout, so both still stand as they did
        by_cases hne : raw.indentation = []
        · rw [if_pos hne, Option.none_or] at hlast
          rw [hne] at hmeasure ⊢
          obtain ⟨first, hfirst, hunit, -⟩ := layout.measure_nil
          rw [hfirst] at hmeasure
          cases hmeasure
          obtain ⟨next, hnext, hsame, hread⟩ := last.measure_nil
          rw [← hsame] at hlast
          have hrest := ih (hunit.trans hlayout) (fun hfresh => absurd hfresh hread) hlast hbelow
          rw [hnext]
          dsimp only
          rw [hrest]
          rfl
        · rw [if_neg hne] at hlast
          -- the first indentation is the lines' own unit, and from here on both layouts are the
          -- same
          rw [Layout.measure_of_unit hlayout hmeasure hne hfresh fun unit hunit =>
            hlast unit hunit _ rfl]
          dsimp only
          rw [hbelow]
          rfl

end Line

end Stylesheet
