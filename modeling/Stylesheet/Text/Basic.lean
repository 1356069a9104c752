/-!
# Text and its characters

A text is a list of Unicode characters. Positions reported to a reader count UTF-16 units, so a
character outside the basic plane counts twice.

- `Text.units`: the length of a text in UTF-16 units, the sum of its characters' `width`s; additive
  over `++` (`units_append`).
- `Text.isBlank`, `Text.isLineBreak`, `Text.isWord`: the character classes that the line forms are
  written in. A line break is blank (`isBlank_of_isLineBreak`), a word character never is
  (`isBlank_eq_false_of_isWord`).
- `Text.secondUnit`: the character one unit into a text; `Text.dropUnit`: what follows the first
  unit (`units_dropUnit`).
-/

namespace Stylesheet

/-- A text: a list of Unicode characters. -/
abbrev Text := List Char

/-- A string literal stands for the list of its characters. -/
instance : Coe String Text := ⟨String.toList⟩

namespace Text

/-! ## Length and positions -/

/-- The number of UTF-16 units of a character: two outside the basic plane. -/
def width (c : Char) : Nat := if c.toNat < 0x10000 then 1 else 2

/-- The length of a text in UTF-16 units. -/
def units : Text → Nat
  | [] => 0
  | c :: t => width c + units t

@[simp] theorem units_nil : units [] = 0 := rfl

@[simp] theorem units_cons (c : Char) (t : Text) : units (c :: t) = width c + units t := rfl

@[simp] theorem units_append (s t : Text) : units (s ++ t) = units s + units t := by
  induction s with
  | nil => simp
  | cons c s ih => rw [List.cons_append, units_cons, ih, units_cons, Nat.add_assoc]

/-- The character that starts one unit into the text. A first character that takes two units
leaves none there. -/
def secondUnit : Text → Option Char
  | c :: d :: _ => if width c = 1 then some d else none
  | _ => none

/-- The text without its first unit. Where a first character of two units is cut through, the unit
that is left is no character, and the replacement character stands for it. -/
def dropUnit : Text → Text
  | [] => []
  | c :: t => if width c = 1 then t else '\uFFFD' :: t

theorem dropUnit_cons {c : Char} (h : width c = 1) (t : Text) : dropUnit (c :: t) = t := if_pos h

/-- Of a text that is not empty one unit is dropped. -/
theorem units_dropUnit (t : Text) : units (dropUnit t) = units t - 1 := by
  cases t with
  | nil => rfl
  | cons c t =>
    show units (if width c = 1 then t else '\uFFFD' :: t) = units (c :: t) - 1
    split
    · rename_i h
      rw [units_cons, h, Nat.add_sub_cancel_left]
    · rename_i h
      have hc : width c = 2 := by
        unfold width at h ⊢
        split
        · rename_i hlt
          exact absurd (if_pos hlt) h
        · rfl
      have hr : width '\uFFFD' = 1 := rfl
      rw [units_cons, units_cons, hc, hr]
      omega

/-! ## Character classes -/

/-- A blank: the tab, the line feed and their neighbours up to the carriage return, the space
characters of every width, the line and paragraph separators and the byte order mark. -/
def isBlank (c : Char) : Bool :=
  let n := c.toNat
  (0x9 ≤ n && n ≤ 0xD) || n == 0x20 || n == 0xA0 || n == 0x1680 || (0x2000 ≤ n && n ≤ 0x200A) ||
    n == 0x2028 || n == 0x2029 || n == 0x202F || n == 0x205F || n == 0x3000 || n == 0xFEFF

/-- A character that ends a line of text: line feed, carriage return, line separator or
paragraph separator. -/
def isLineBreak (c : Char) : Bool :=
  let n := c.toNat
  n == 0xA || n == 0xD || n == 0x2028 || n == 0x2029

/-- A letter of the basic Latin alphabet, or the underscore. -/
def isWordStart (c : Char) : Bool :=
  ('a' ≤ c && c ≤ 'z') || ('A' ≤ c && c ≤ 'Z') || c == '_'

/-- A character that may stand inside a word: a letter, a digit or the underscore. -/
def isWord (c : Char) : Bool :=
  isWordStart c || ('0' ≤ c && c ≤ '9')

theorem isBlank_of_isLineBreak {c : Char} (h : isLineBreak c = true) : isBlank c = true := by
  simp only [isLineBreak, Bool.or_eq_true, beq_iff_eq] at h
  rcases h with ((h | h) | h) | h <;> simp [isBlank, h]

theorem toNat_bounds_of_isWord {c : Char} (h : isWord c = true) :
    48 ≤ c.toNat ∧ c.toNat ≤ 122 := by
  simp only [isWord, isWordStart, Bool.or_eq_true, Bool.and_eq_true, decide_eq_true_eq,
    beq_iff_eq] at h
  rcases h with ((⟨h₁, h₂⟩ | ⟨h₁, h₂⟩) | rfl) | ⟨h₁, h₂⟩
  · have h₁ : (97 : Nat) ≤ c.toNat := h₁
    have h₂ : c.toNat ≤ 122 := h₂
    omega
  · have h₁ : (65 : Nat) ≤ c.toNat := h₁
    have h₂ : c.toNat ≤ 90 := h₂
    omega
  · decide
  · have h₁ : (48 : Nat) ≤ c.toNat := h₁
    have h₂ : c.toNat ≤ 57 := h₂
    omega

theorem isBlank_eq_false_of_isWord {c : Char} (h : isWord c = true) : isBlank c = false := by
  have ⟨h₁, h₂⟩ := toNat_bounds_of_isWord h
  simp only [isBlank, Bool.or_eq_false_iff, Bool.and_eq_false_iff, decide_eq_false_iff_not,
    beq_eq_false_iff_ne]
  omega

end Text

end Stylesheet
