import Stylesheet.Number

/-!
# Rounding keeps the order

A line number is a sum of two numbers, rounded to 53 significant bits.

- `round_mono`: rounding never turns two numbers around.
- `round_lt_round`: it makes two numbers equal only where both have left the range in which every
  whole number is exact, so line numbers below `exactBound` are strictly ordered.
-/

namespace Stylesheet.Number

/-! ## Magnitudes -/

theorem quotient_mono {n m d : Nat} (h : n ≤ m) : quotient n d ≤ quotient m d := by
  have hdiv : n / d ≤ m / d := Nat.div_le_div_right h
  rcases Nat.lt_or_eq_of_le hdiv with hlt | heq
  · exact Nat.le_trans (quotient_bounds n d).2 (Nat.le_trans hlt (quotient_bounds m d).1)
  · -- with equal quotients the larger number has the larger rest
    have hn := Nat.div_add_mod n d
    have hm := Nat.div_add_mod m d
    rw [heq] at hn
    have hmod : n % d ≤ m % d := by omega
    unfold quotient
    rw [heq]
    split <;> split <;> omega

/-- The powers of two around a magnitude that is not exact. -/
theorem excess_bounds {n : Nat} (h : exactBound < n) :
    Nat.pow 2 (52 + excess n) ≤ n ∧ n < Nat.pow 2 (53 + excess n) := by
  have hne : n ≠ 0 := by omega
  have hbits : 53 ≤ n.log2 := (Nat.le_log2 hne).mpr (Nat.le_of_lt h)
  have hlow : 2 ^ n.log2 ≤ n := Nat.log2_self_le hne
  have hhigh : n < 2 ^ (n.log2 + 1) := Nat.lt_log2_self
  have he : n.log2 = 52 + excess n := by
    unfold excess
    omega
  rw [he] at hlow hhigh
  exact ⟨hlow, by rwa [Nat.add_right_comm] at hhigh⟩

theorem excess_pos {n : Nat} (h : exactBound < n) : 0 < excess n := by
  have hne : n ≠ 0 := by omega
  have hbits : 53 ≤ n.log2 := (Nat.le_log2 hne).mpr (Nat.le_of_lt h)
  unfold excess
  omega

/-- A rounded magnitude stays between the same powers of two. -/
theorem nearest_bounds {n : Nat} (h : exactBound < n) :
    Nat.pow 2 (52 + excess n) ≤ nearest n ∧ nearest n ≤ Nat.pow 2 (53 + excess n) := by
  obtain ⟨hlow, hhigh⟩ := excess_bounds h
  have hpos : 0 < Nat.pow 2 (excess n) := Nat.two_pow_pos _
  have hrounded : nearest n = quotient n (Nat.pow 2 (excess n)) * Nat.pow 2 (excess n) :=
    if_neg (Nat.not_le.mpr h)
  have hsplit : ∀ k, Nat.pow 2 (k + excess n) = Nat.pow 2 k * Nat.pow 2 (excess n) :=
    fun k => Nat.pow_add 2 k (excess n)
  obtain ⟨hq, hq'⟩ := quotient_bounds n (Nat.pow 2 (excess n))
  rw [hsplit] at hlow hhigh
  have hcut : Nat.pow 2 52 ≤ n / Nat.pow 2 (excess n) := (Nat.le_div_iff_mul_le hpos).mpr hlow
  have hcut' : n / Nat.pow 2 (excess n) < Nat.pow 2 53 := (Nat.div_lt_iff_lt_mul hpos).mpr hhigh
  rw [hrounded, hsplit, hsplit]
  exact ⟨Nat.mul_le_mul_right _ (Nat.le_trans hcut hq),
    Nat.mul_le_mul_right _ (Nat.le_trans hq' hcut')⟩

/-- Beyond the exact magnitudes a rounded one is at least the last of them. -/
theorem exactBound_le_nearest {n : Nat} (h : exactBound < n) : exactBound ≤ nearest n := by
  have hpow : exactBound ≤ Nat.pow 2 (52 + excess n) := by
    have hpos := excess_pos h
    show 2 ^ 53 ≤ 2 ^ (52 + excess n)
    exact Nat.pow_le_pow_right (by omega) (by omega)
  exact Nat.le_trans hpow (nearest_bounds h).1

theorem excess_mono {n m : Nat} (hn : exactBound < n) (h : n ≤ m) : excess n ≤ excess m := by
  have hlow : 2 ^ n.log2 ≤ n := Nat.log2_self_le (by omega)
  have hlog : n.log2 ≤ m.log2 := (Nat.le_log2 (by omega)).mpr (Nat.le_trans hlow h)
  unfold excess
  omega

theorem nearest_mono {n m : Nat} (h : n ≤ m) : nearest n ≤ nearest m := by
  rcases Nat.lt_or_ge exactBound n with hn | hn
  · have hm : exactBound < m := Nat.lt_of_lt_of_le hn h
    rcases Nat.lt_or_eq_of_le (excess_mono hn h) with hlt | heq
    · -- between the two lies a power of two
      have hpow : Nat.pow 2 (53 + excess n) ≤ Nat.pow 2 (52 + excess m) :=
        Nat.pow_le_pow_right (by omega) (by omega)
      exact Nat.le_trans (nearest_bounds hn).2 (Nat.le_trans hpow (nearest_bounds hm).1)
    · have hn' : ¬n ≤ exactBound := Nat.not_le.mpr hn
      have hm' : ¬m ≤ exactBound := Nat.not_le.mpr hm
      unfold nearest
      rw [if_neg hn', if_neg hm', heq]
      exact Nat.mul_le_mul_right _ (quotient_mono h)
  · rw [nearest_of_le hn]
    rcases Nat.lt_or_ge exactBound m with hm | hm
    · exact Nat.le_trans hn (exactBound_le_nearest hm)
    · rwa [nearest_of_le hm]

/-! ## Numbers -/

theorem natAbs_round (x : Int) : (round x).natAbs = nearest x.natAbs := by
  cases x with
  | ofNat n => rfl
  | negSucc n =>
    show (-(nearest (n + 1) : Int)).natAbs = nearest (n + 1)
    rw [Int.natAbs_neg, Int.natAbs_natCast]

theorem round_mono {x y : Int} (h : x ≤ y) : round x ≤ round y := by
  match x, y, h with
  | .ofNat n, .ofNat m, h =>
    have hnm : n ≤ m := Int.ofNat_le.mp h
    exact Int.ofNat_le.mpr (nearest_mono hnm)
  | .negSucc n, .ofNat m, _ =>
    show -(nearest (n + 1) : Int) ≤ (nearest m : Int)
    omega
  | .negSucc n, .negSucc m, h =>
    have hmn : nearest (m + 1) ≤ nearest (n + 1) := nearest_mono (by omega)
    show -(nearest (n + 1) : Int) ≤ -(nearest (m + 1) : Int)
    omega
  | .ofNat n, .negSucc m, h =>
    have hneg : Int.negSucc m < 0 := Int.negSucc_lt_zero m
    exact absurd (Int.le_trans (Int.natCast_nonneg n) h) (Int.not_le.mpr hneg)

/-- A number that is small once it is rounded was exact. -/
theorem round_eq_of_natAbs_lt {x : Int} (h : (round x).natAbs < exactBound) : round x = x := by
  rw [natAbs_round] at h
  refine round_of_natAbs_le (Nat.le_of_not_lt fun hlarge => ?_)
  exact absurd (exactBound_le_nearest hlarge) (Nat.not_le.mpr h)

/-- Two numbers can only become equal where both leave the exact range. -/
theorem round_lt_round {x y : Int} (h : x < y)
    (hsmall : (round x).natAbs < exactBound ∨ (round y).natAbs < exactBound) :
    round x < round y := by
  refine Int.lt_iff_le_and_ne.mpr ⟨round_mono (Int.le_of_lt h), fun heq => ?_⟩
  have hboth : (round x).natAbs < exactBound ∧ (round y).natAbs < exactBound := by
    rw [heq, or_self] at hsmall
    exact ⟨heq ▸ hsmall, hsmall⟩
  rw [round_eq_of_natAbs_lt hboth.1, round_eq_of_natAbs_lt hboth.2] at heq
  omega

end Stylesheet.Number
