import Stylesheet.Proofs.Json.Decoding
import Stylesheet.Proofs.Rounding
import Stylesheet.Proofs.Text.Slices

/-!
# Reading quoted texts and numbers

A quoted text and a written number are read again, whatever stands behind them.

- `characters?_quote`: a text is read from its quoted form.
- `magnitude?_ofNat`: a number is read from its digits, with the zeros behind them or with an
  exponent. It is rounded as numbers are, which gives the number itself if it has no more than 53
  significant bits.
- `all_isPrintable_quote`, `all_isPrintable_ofInt`: neither has a control character.
-/

namespace Stylesheet.Json

/-! ## Strings -/

/-- A hexadecimal digit is read back as its number. -/
theorem hexValue?_hexDigit : ∀ n < 16, hexValue? (Text.hexDigit n) = some n := by decide

/-- A control character is read from its two digits. -/
theorem numbered?_hexDigit {c : Char} (h : c.toNat < 0x20) :
    numbered? '0' '0' (Text.hexDigit (c.toNat / 16)) (Text.hexDigit (c.toNat % 16)) = some c := by
  have hzero : hexValue? '0' = some 0 := rfl
  have hvalid : c.toNat.isValidChar := c.valid
  have hn : ((0 * 16 + 0) * 16 + c.toNat / 16) * 16 + c.toNat % 16 = c.toNat := by omega
  unfold numbered?
  rw [hzero, hexValue?_hexDigit _ (by omega), hexValue?_hexDigit _ (Nat.mod_lt _ (by omega))]
  dsimp only [Option.bind_some]
  rw [hn, if_pos hvalid, Char.ofNat_toNat]

/-- A character that stands for itself is read. -/
theorem characters?_cons {c : Char} (hquote : c ≠ '"') (hbackslash : c ≠ '\\')
    (hcontrol : ¬c.toNat < 0x20) (t : Text) :
    characters? (c :: t) = prepend (some c) (characters? t) := by
  rw [characters?, if_neg hcontrol]
  · exact hquote
  · intro _ _ _ _ _ h
    exact absurd h hbackslash
  · intro _ _ h
    exact absurd h hbackslash

/-- A character is read from its written form. -/
theorem characters?_escaped (c : Char) (t : Text) :
    characters? (Text.escaped c ++ t) = prepend (some c) (characters? t) := by
  unfold Text.escaped
  repeat' split
  -- seven characters have a letter of their own
  any_goals (subst c; rfl)
  · rename_i hcontrol
    show prepend (numbered? '0' '0' _ _) (characters? t) = _
    rw [numbered?_hexDigit hcontrol]
  · rename_i hquote hbackslash _ _ _ _ _ hcontrol
    exact characters?_cons hquote hbackslash hcontrol t

/-- A text is read from its quoted form. -/
theorem characters?_quote (t rest : Text) :
    characters? (t.flatMap Text.escaped ++ '"' :: rest) = some (t, rest) := by
  induction t with
  | nil => rfl
  | cons c t ih =>
    rw [List.flatMap_cons, List.append_assoc, characters?_escaped, ih]
    rfl

/-! ## Numbers -/

/-- No number goes on with the text. -/
def EndsNumber (t : Text) : Prop :=
  ∀ c ∈ t.head?, c.isDigit = false ∧ c ≠ '.' ∧ c ≠ 'e' ∧ c ≠ 'E'

theorem endsNumber_nil : EndsNumber [] := fun _ hc => nomatch hc

variable {digits rest : Text}

/-- Digits are read up to the first character that is none. -/
theorem digits?_append (hne : digits ≠ []) (hdigits : digits.all Char.isDigit = true)
    (hrest : ∀ c ∈ rest.head?, c.isDigit = false) : digits? (digits ++ rest) = some (digits, rest) := by
  obtain ⟨htake, hdrop⟩ := Text.cut_behind hdigits hrest
  unfold digits?
  rw [htake, hdrop, if_neg (by simpa using hne)]

theorem fraction?_of_endsNumber (h : EndsNumber rest) : fraction? rest = some ([], rest) := by
  unfold fraction?
  split
  · exact absurd rfl (h '.' rfl).2.1
  · rfl

theorem exponent?_of_endsNumber (h : EndsNumber rest) : exponent? rest = some (0, rest) := by
  unfold exponent?
  split
  · exact absurd rfl (h 'e' rfl).2.2.1
  · exact absurd rfl (h 'E' rfl).2.2.2
  · rfl

/-- Digits alone are read as their number. -/
theorem magnitude?_digits (hne : digits ≠ []) (hdigits : digits.all Char.isDigit = true)
    (hzero : digits.head? ≠ some '0' ∨ digits.length = 1) (hrest : EndsNumber rest) :
    magnitude? (digits ++ rest) = some (Number.nearest (ofDigits digits), rest) := by
  have hwhole : whole? (digits ++ rest) = some (digits, rest) := by
    unfold whole?
    rw [digits?_append hne hdigits fun c hc => (hrest c hc).1]
    exact if_pos (by simpa using hzero)
  have hscaled : scaled? (ofDigits (digits ++ [])) (0 - (List.length ([] : Text))) =
      some (ofDigits digits) := by
    rw [List.append_nil]
    exact congrArg some (Nat.mul_one _)
  unfold magnitude?
  rw [hwhole]
  dsimp only [Option.bind_some]
  rw [fraction?_of_endsNumber hrest]
  dsimp only [Option.bind_some]
  rw [exponent?_of_endsNumber hrest]
  dsimp only [Option.bind_some]
  rw [hscaled]
  rfl

/-! ### Digits -/

theorem all_isDigit_toDigits (n : Nat) : (Nat.toDigits 10 n).all Char.isDigit = true :=
  List.all_eq_true.mpr fun _ hc => Nat.isDigit_of_mem_toDigits (by decide) (by decide) hc

/-- The digits of a number do not start with a zero that could be left out. -/
theorem head?_toDigits {n : Nat} (h : 0 < n) : (Nat.toDigits 10 n).head? ≠ some '0' := by
  -- by induction on the number without its last digit, which has the same first one
  induction n using Nat.strongRecOn with
  | ind n ih =>
    rcases Nat.lt_or_ge n 10 with hlt | hge
    · rw [Nat.toDigits_of_lt_base hlt]
      intro heq
      have hdigit : n.digitChar = '0' := Option.some.inj heq
      rw [Nat.digitChar_eq_zero] at hdigit
      omega
    · rw [Nat.toDigits_of_base_le (by decide) hge, List.head?_append_of_ne_nil _ Nat.toDigits_ne_nil]
      exact ih (n / 10) (by omega) (by omega)

/-- The decimal digits of a number stand for it. -/
theorem ofDigits_toDigits (n : Nat) : ofDigits (Nat.toDigits 10 n) = n := Nat.ofDigitChars_ten_toDigits

/-- A number with all its digits is read. -/
theorem magnitude?_toDigits (n : Nat) (hrest : EndsNumber rest) :
    magnitude? (Nat.toDigits 10 n ++ rest) = some (Number.nearest n, rest) := by
  have hzero : (Nat.toDigits 10 n).head? ≠ some '0' ∨ (Nat.toDigits 10 n).length = 1 := by
    rcases Nat.eq_zero_or_pos n with rfl | hpos
    · exact .inr rfl
    · exact .inl (head?_toDigits hpos)
  rw [magnitude?_digits Nat.toDigits_ne_nil (all_isDigit_toDigits n) hzero hrest, ofDigits_toDigits]

/-- Zeros fill the places behind the digits of a decimal. -/
theorem magnitude?_padded {decimal : Decimal} (h : 0 < decimal.digits) (hrest : EndsNumber rest) :
    magnitude? (Nat.toDigits 10 decimal.digits ++ List.replicate decimal.places '0' ++ rest) =
      some (Number.nearest decimal.value, rest) := by
  have hdigits : (Nat.toDigits 10 decimal.digits ++ List.replicate decimal.places '0').all
      Char.isDigit = true := by
    rw [List.all_append, all_isDigit_toDigits, List.all_replicate]
    split <;> rfl
  have hvalue : ofDigits (Nat.toDigits 10 decimal.digits ++ List.replicate decimal.places '0') =
      decimal.value := by
    unfold ofDigits Decimal.value
    rw [Nat.ofDigitChars_append, Nat.ofDigitChars_ten_toDigits, Nat.ofDigitChars_replicate_zero]
    exact Nat.mul_comm _ _
  rw [magnitude?_digits (List.append_ne_nil_of_left_ne_nil Nat.toDigits_ne_nil _) hdigits, hvalue]
  · rw [List.head?_append_of_ne_nil _ Nat.toDigits_ne_nil]
    exact .inl (head?_toDigits h)
  · exact hrest

/-- The digits behind a point, which is left out where there are none. -/
theorem fraction?_append (hdigits : digits.all Char.isDigit = true) (t : Text) :
    fraction? ((if digits.isEmpty then [] else '.' :: digits) ++ 'e' :: t) =
      some (digits, 'e' :: t) := by
  cases digits with
  | nil => rfl
  | cons d digits =>
    refine digits?_append (List.cons_ne_nil d digits) hdigits ?_
    rintro c ⟨⟩
    rfl

/-- An exponent is read up to where the number ends. -/
theorem exponent?_append (n : Nat) (hrest : EndsNumber rest) :
    exponent? ('e' :: '+' :: (Nat.toDigits 10 n ++ rest)) = some ((n : Int), rest) := by
  show (digits? (Nat.toDigits 10 n ++ rest)).map _ = _
  rw [digits?_append Nat.toDigits_ne_nil (all_isDigit_toDigits n) fun c hc => (hrest c hc).1,
    Option.map_some, ofDigits_toDigits]

/-- A first digit, a point and the other digits, and the exponent. -/
theorem magnitude?_scientific {first : Char} {others : Text} {places : Nat}
    (hdigits : (first :: others).all Char.isDigit = true) (hrest : EndsNumber rest) :
    magnitude? (first :: ((if others.isEmpty then [] else '.' :: others) ++ 'e' :: '+' ::
        (Nat.toDigits 10 (others.length + places) ++ rest))) =
      some (Number.nearest (ofDigits (first :: others) * Nat.pow 10 places), rest) := by
  obtain ⟨hfirst, hothers⟩ := Bool.and_eq_true_iff.mp (List.all_cons.symm.trans hdigits)
  have hwhole : ∀ t : Text, (∀ c ∈ t.head?, c.isDigit = false) →
      whole? (first :: t) = some ([first], t) := by
    intro t ht
    have hone : digits? ([first] ++ t) = some ([first], t) :=
      digits?_append (List.cons_ne_nil first []) (List.all_eq_true.mpr (by simpa using hfirst)) ht
    unfold whole?
    rw [← List.singleton_append, hone]
    exact if_pos (by simp)
  -- the exponent counts the digits behind the point as well, so these are taken off again
  have hscaled : scaled? (ofDigits ([first] ++ others))
      (((others.length + places : Nat) : Int) - others.length) =
        some (ofDigits (first :: others) * Nat.pow 10 places) := by
    have hplaces : ((others.length + places : Nat) : Int) - others.length = (places : Int) := by omega
    rw [hplaces]
    rfl
  unfold magnitude?
  rw [hwhole]
  · dsimp only [Option.bind_some]
    rw [fraction?_append hothers]
    dsimp only [Option.bind_some]
    rw [exponent?_append _ hrest]
    dsimp only [Option.bind_some]
    rw [hscaled]
    rfl
  · cases others with
    | nil =>
      rintro c ⟨⟩
      rfl
    | cons d others =>
      rintro c ⟨⟩
      rfl

/-- A decimal is read as the number that it stands for, rounded. -/
theorem magnitude?_ofDecimal {decimal : Decimal} (h : 0 < decimal.digits) (hrest : EndsNumber rest) :
    magnitude? (Text.ofDecimal decimal ++ rest) = some (Number.nearest decimal.value, rest) := by
  unfold Text.ofDecimal
  dsimp only
  split
  · exact magnitude?_padded h hrest
  · -- the exponent counts the places behind the first digit, and the point takes off those of the others
    have hall := all_isDigit_toDigits decimal.digits
    have hvalue := ofDigits_toDigits decimal.digits
    cases hdigits : Nat.toDigits 10 decimal.digits with
    | nil => exact absurd hdigits Nat.toDigits_ne_nil
    | cons first others =>
      rw [hdigits] at hall hvalue
      have hread := @magnitude?_scientific rest first others decimal.places hall hrest
      rw [hvalue] at hread
      simp only [List.append_assoc]
      exact hread

/-- A magnitude is read from its text, rounded. -/
theorem magnitude?_ofNat (n : Nat) (hrest : EndsNumber rest) :
    magnitude? (Text.ofNat n ++ rest) = some (Number.nearest n, rest) := by
  unfold Text.ofNat
  split
  · exact magnitude?_toDigits n hrest
  · -- beyond the exact numbers only the shortest decimal is written that is rounded to the same number
    rename_i hlarge
    have hvalue := Decimal.nearest_shortest n
    have hpos : 0 < (Decimal.shortest n).digits := by
      refine Nat.pos_of_ne_zero fun hzero => ?_
      have hbound := Number.exactBound_le_nearest (Nat.lt_of_not_le hlarge)
      rw [← hvalue, Decimal.value, hzero, Nat.zero_mul] at hbound
      exact absurd hbound (by decide)
    rw [magnitude?_ofDecimal hpos hrest, hvalue]

/-- The text of a magnitude starts with a digit. -/
theorem ofNat_eq_cons (n : Nat) : ∃ c t, Text.ofNat n = c :: t ∧ c.isDigit = true := by
  have hdigits : ∀ m, ∃ c t, Nat.toDigits 10 m = c :: t ∧ c.isDigit = true := by
    intro m
    obtain ⟨c, t, hm⟩ := List.exists_cons_of_ne_nil (Nat.toDigits_ne_nil (n := m) (b := 10))
    have hall := all_isDigit_toDigits m
    rw [hm, List.all_cons] at hall
    exact ⟨c, t, hm, (Bool.and_eq_true_iff.mp hall).1⟩
  unfold Text.ofNat Text.ofDecimal
  split
  · exact hdigits n
  · obtain ⟨c, t, hm, hc⟩ := hdigits (Decimal.shortest n).digits
    dsimp only
    rw [hm]
    split
    · exact ⟨c, _, rfl, hc⟩
    · exact ⟨c, _, rfl, hc⟩

/-! ## Control characters -/

/-- Whether a character is no control character. -/
def isPrintable (c : Char) : Bool := 0x20 ≤ c.toNat

theorem isPrintable_hexDigit : ∀ n < 16, isPrintable (Text.hexDigit n) = true := by decide

theorem isPrintable_of_isDigit {c : Char} (h : c.isDigit = true) : isPrintable c = true := by
  simp only [Char.isDigit, Bool.and_eq_true, decide_eq_true_eq] at h
  have hlow : (48 : Nat) ≤ c.toNat := h.1
  exact decide_eq_true (by omega)

theorem all_isPrintable_escaped (c : Char) : (Text.escaped c).all isPrintable = true := by
  unfold Text.escaped
  repeat' split
  any_goals rfl
  · have hhigh := isPrintable_hexDigit (c.toNat / 16) (by omega)
    have hlow := isPrintable_hexDigit (c.toNat % 16) (Nat.mod_lt _ (by omega))
    simp only [List.all_cons, hhigh, hlow]
    rfl
  · rename_i hcontrol
    have hc : isPrintable c = true := decide_eq_true (Nat.le_of_not_lt hcontrol)
    simp only [List.all_cons, hc]
    rfl

/-- A quoted text holds no control character, whatever it quotes. -/
theorem all_isPrintable_quote (t : Text) : (Text.quote t).all isPrintable = true := by
  have hescaped : (t.flatMap Text.escaped).all isPrintable = true := by
    rw [List.all_flatMap]
    exact List.all_eq_true.mpr fun c _ => all_isPrintable_escaped c
  unfold Text.quote
  rw [List.all_append, List.all_append, hescaped]
  rfl

theorem all_isPrintable_digits (h : digits.all Char.isDigit = true) : digits.all isPrintable = true :=
  List.all_eq_true.mpr fun c hc => isPrintable_of_isDigit (List.all_eq_true.mp h c hc)

theorem all_isPrintable_ofNat (n : Nat) : (Text.ofNat n).all isPrintable = true := by
  have hdigits : ∀ m, (Nat.toDigits 10 m).all isPrintable = true :=
    fun m => all_isPrintable_digits (all_isDigit_toDigits m)
  unfold Text.ofNat Text.ofDecimal
  split
  · exact hdigits n
  · dsimp only
    split
    · rw [List.all_append, hdigits, List.all_replicate]
      split <;> rfl
    · have hmem := List.all_eq_true.mp (hdigits (Decimal.shortest n).digits)
      have hfirst := List.all_eq_true.mpr fun c hc => hmem c (List.mem_of_mem_take (i := 1) hc)
      have hothers := List.all_eq_true.mpr fun c hc => hmem c (List.mem_of_mem_tail hc)
      rw [List.all_append, List.all_append, List.all_append, hfirst, hdigits]
      split
      · rfl
      · rw [List.all_cons, hothers]
        rfl

theorem all_isPrintable_ofInt (n : Int) : (Text.ofInt n).all isPrintable = true := by
  match n with
  | .ofNat n => exact all_isPrintable_ofNat n
  | .negSucc n => exact all_isPrintable_ofNat (n + 1)

end Stylesheet.Json
