import Stylesheet.Number
import Stylesheet.Text.Basic

/-!
# Numbers in decimal

A number is written with the fewest digits that tell it from the other numbers of 53 significant
bits; zeros fill the places behind them. From `10 ^ 21` on, the exponent is written instead.

- `Decimal.shortest`: those digits and how many places follow. What they stand for is rounded to the
  number again (`nearest_shortest`).
- `Text.ofNat`, `Text.ofInt`: the text of a number; small numbers are written with all their digits.
-/

namespace Stylesheet

/-! ## The fewest digits -/

/-- Digits, and the number of places that follow them. -/
structure Decimal where
  digits : Nat
  places : Nat
deriving DecidableEq, Repr

namespace Decimal

/-- The magnitude that a decimal stands for. -/
def value (decimal : Decimal) : Nat := decimal.digits * Nat.pow 10 decimal.places

/-- The two decimals with `places` places that enclose a magnitude, the nearer one first. -/
def neighbours (n places : Nat) : List Decimal :=
  let grid := Nat.pow 10 places
  let low := n / grid
  if 2 * (n % grid) ≤ grid then [⟨low, places⟩, ⟨low + 1, places⟩]
  else [⟨low + 1, places⟩, ⟨low, places⟩]

/-- The decimal of the fewest digits, with at most `places` places, that is rounded to `n`. -/
def shortestWithin (n : Nat) : Nat → Decimal
  | 0 => ⟨n, 0⟩
  | places + 1 =>
    match (neighbours n (places + 1)).find? (fun decimal => Number.nearest decimal.value = n) with
    | some decimal => decimal
    | none => shortestWithin n places

/-- The decimal of the fewest digits that is rounded to the same number as `n`. -/
def shortest (n : Nat) : Decimal :=
  let rounded := Number.nearest n
  shortestWithin rounded (Nat.toDigits 10 rounded).length

theorem nearest_shortestWithin {n : Nat} (h : Number.nearest n = n) (places : Nat) :
    Number.nearest (shortestWithin n places).value = n := by
  induction places with
  | zero => simpa [shortestWithin, value] using h
  | succ places ih =>
    unfold shortestWithin
    split
    · rename_i decimal hfind
      simpa using List.find?_some hfind
    · exact ih

theorem nearest_shortest (n : Nat) : Number.nearest (shortest n).value = Number.nearest n :=
  nearest_shortestWithin (Number.nearest_nearest n) _

end Decimal

/-! ## The text of a number -/

namespace Text

/-- The text of a decimal. Up to 21 digits all of them are written, zeros included; more than that
are written as one digit, a point, the other digits and the exponent. -/
def ofDecimal (decimal : Decimal) : Text :=
  let digits := Nat.toDigits 10 decimal.digits
  if digits.length + decimal.places ≤ 21 then digits ++ List.replicate decimal.places '0'
  else
    let rest := digits.tail
    digits.take 1 ++ (if rest.isEmpty then [] else '.' :: rest) ++ "e+" ++
      Nat.toDigits 10 (rest.length + decimal.places)

/-- The text of a magnitude. -/
def ofNat (n : Nat) : Text :=
  if n ≤ Number.exactBound then Nat.toDigits 10 n else ofDecimal (Decimal.shortest n)

/-- The text of a number, after a minus sign where it is negative. -/
def ofInt : Int → Text
  | .ofNat n => ofNat n
  | .negSucc n => '-' :: ofNat (n + 1)

end Text

end Stylesheet
