/-!
# Numbers of 53 significant bits

Line numbers, depths and columns are whole numbers of at most 53 significant bits. Up to `2 ^ 53`
these are all whole numbers; beyond it a sum is rounded to the nearest of them, and half way between
two to the one whose last significant bit is zero.

- `Number.nearest`: the rounded magnitude. It is a number of 53 significant bits itself
  (`nearest_nearest`), and small magnitudes are exact (`nearest_of_le`).
- `Number.round`: the same with a sign.
- `Number.plus`: the rounded sum; exact while it is small (`plus_of_natAbs_le`).
-/

namespace Stylesheet.Number

/-- The magnitude up to which every whole number is exact. -/
def exactBound : Nat := 0x20000000000000

/-- The number of bits that a magnitude has beyond 53. -/
def excess (n : Nat) : Nat := n.log2 - 52

/-- The quotient rounded to the nearest whole number, half way to the even one. -/
def quotient (n d : Nat) : Nat :=
  if d < 2 * (n % d) ∨ (2 * (n % d) = d ∧ n / d % 2 = 1) then n / d + 1 else n / d

/-- The nearest magnitude of 53 significant bits. -/
def nearest (n : Nat) : Nat :=
  if n ≤ exactBound then n else quotient n (Nat.pow 2 (excess n)) * Nat.pow 2 (excess n)

/-- The nearest number of 53 significant bits. -/
def round : Int → Int
  | .ofNat n => nearest n
  | .negSucc n => -(nearest (n + 1) : Int)

/-- The sum, rounded. -/
def plus (a b : Int) : Int := round (a + b)

/-! ## Small numbers are exact -/

theorem nearest_of_le {n : Nat} (h : n ≤ exactBound) : nearest n = n := if_pos h

theorem round_of_natAbs_le {n : Int} (h : n.natAbs ≤ exactBound) : round n = n := by
  cases n with
  | ofNat n => exact congrArg Int.ofNat (nearest_of_le h)
  | negSucc n =>
    have hn : nearest (n + 1) = n + 1 := nearest_of_le h
    show -(nearest (n + 1) : Int) = _
    rw [hn]
    rfl

theorem plus_of_natAbs_le {a b : Int} (h : (a + b).natAbs ≤ exactBound) : plus a b = a + b :=
  round_of_natAbs_le h

/-! ## Rounding twice -/

/-- A multiple divides without a rest. -/
theorem quotient_mul {d : Nat} (h : 0 < d) (n : Nat) : quotient (n * d) d = n := by
  have hmod : n * d % d = 0 := Nat.mul_mod_left n d
  unfold quotient
  rw [hmod, Nat.mul_div_cancel n h, if_neg]
  omega

theorem nearest_of_dvd {n : Nat} (h : Nat.pow 2 (excess n) ∣ n) : nearest n = n := by
  unfold nearest
  split
  · rfl
  · obtain ⟨m, hm⟩ := h
    have hq : quotient n (Nat.pow 2 (excess n)) = m := by
      conv => lhs; arg 1; rw [hm, Nat.mul_comm]
      exact quotient_mul (Nat.two_pow_pos _) m
    rw [hq, Nat.mul_comm, ← hm]

/-- The rounded quotient is the cut one or one more. -/
theorem quotient_bounds (n d : Nat) : n / d ≤ quotient n d ∧ quotient n d ≤ n / d + 1 := by
  unfold quotient
  split <;> omega

/-- A magnitude that lies between two powers of two, as its number of bits says. -/
theorem excess_eq {n e : Nat} (hlow : Nat.pow 2 (52 + e) ≤ n) (hhigh : n < Nat.pow 2 (53 + e)) :
    excess n = e := by
  have hne : n ≠ 0 := by
    have hpos : 0 < Nat.pow 2 (52 + e) := Nat.two_pow_pos (52 + e)
    omega
  have hle : 52 + e ≤ n.log2 := (Nat.le_log2 hne).mpr hlow
  have hlt : n.log2 < 53 + e := (Nat.log2_lt hne).mpr hhigh
  unfold excess
  omega

/-- A rounded magnitude stays as it is. -/
theorem nearest_nearest (n : Nat) : nearest (nearest n) = nearest n := by
  by_cases h : n ≤ exactBound
  · rw [nearest_of_le h, nearest_of_le h]
  · have hne : n ≠ 0 := by
      have hpos : 0 < exactBound := Nat.two_pow_pos 53
      omega
    have hbits : 53 ≤ n.log2 := (Nat.le_log2 hne).mpr (Nat.le_of_not_le h)
    have hlow : 2 ^ n.log2 ≤ n := Nat.log2_self_le hne
    have hhigh : n < 2 ^ (n.log2 + 1) := Nat.lt_log2_self
    obtain ⟨e, he⟩ : ∃ e, n.log2 = 52 + e := ⟨n.log2 - 52, by omega⟩
    have hexcess : excess n = e := by
      unfold excess
      omega
    rw [he, Nat.pow_add] at hlow
    rw [he, Nat.add_right_comm, Nat.pow_add] at hhigh
    have hpos := Nat.two_pow_pos e
    have hcut : 2 ^ 52 ≤ n / 2 ^ e := (Nat.le_div_iff_mul_le hpos).mpr hlow
    have hcut' : n / 2 ^ e < 2 ^ 53 := (Nat.div_lt_iff_lt_mul hpos).mpr hhigh
    obtain ⟨hq, hq'⟩ := quotient_bounds n (2 ^ e)
    have hrounded : nearest n = quotient n (2 ^ e) * 2 ^ e := by
      rw [← hexcess]
      exact if_neg h
    rw [hrounded]
    apply nearest_of_dvd
    rcases Nat.lt_or_ge (quotient n (2 ^ e)) (2 ^ 53) with hlt | hge
    · rw [excess_eq (e := e)]
      · exact Nat.dvd_mul_left _ _
      · show 2 ^ (52 + e) ≤ _
        rw [Nat.pow_add]
        exact Nat.mul_le_mul_right _ (Nat.le_trans hcut hq)
      · show _ < 2 ^ (53 + e)
        rw [Nat.pow_add]
        exact Nat.mul_lt_mul_of_pos_right hlt hpos
    · have hfull : quotient n (2 ^ e) = 2 ^ 53 := by omega
      rw [hfull, ← Nat.pow_add, excess_eq (e := e + 1)]
      · exact Nat.pow_dvd_pow 2 (by omega)
      · exact Nat.pow_le_pow_right (by omega) (by omega)
      · exact Nat.pow_lt_pow_right (by omega) (by omega)

end Stylesheet.Number
