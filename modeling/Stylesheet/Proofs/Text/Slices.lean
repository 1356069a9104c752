import Mathlib.Data.List.DropRight
import Mathlib.Data.List.TakeWhile
import Stylesheet.Text.Cut

/-!
# Where a text stands in another one

- `Text.encode`: the UTF-16 units of a text; there are `Text.units` many (`length_encode`).
- `Text.slice`: the units from one column up to another.
- `Text.Occurs`: a text stands in another one at a column. `slice_of_occurs` says that it is cut out
  there, and `Occurs.trans` that columns add up.
- `occurs_trim`, `isPrefix_trim`: where a text stands once the blanks at its ends are gone.
- `trim_split`, `trim_padded`: blanks are cut off a text by trimming, and trimmed off where they are
  put around one.
- `findSome?_cuts`, `blankCuts_padded`: what a search through the ways to cut a text tries first.
- `findSome?_blankCuts`: a search that tries the longest run of blanks first stops in front of a
  blank only if it has failed behind that blank.
-/

namespace Stylesheet.Text

/-! ## UTF-16 units -/

/-- The UTF-16 units of a character: a high and a low one outside the basic plane. -/
def unitsOf (c : Char) : List Nat :=
  if c.toNat < 0x10000 then [c.toNat]
  else [0xD800 + (c.toNat - 0x10000) / 0x400, 0xDC00 + (c.toNat - 0x10000) % 0x400]

/-- The UTF-16 units of a text. -/
def encode (t : Text) : List Nat := t.flatMap unitsOf

/-- The UTF-16 units of a text from a column on, `length` of them. -/
def slice (t : Text) (column length : Nat) : List Nat := ((encode t).drop column).take length

theorem encode_append (s t : Text) : encode (s ++ t) = encode s ++ encode t := List.flatMap_append

theorem length_unitsOf (c : Char) : (unitsOf c).length = width c := by
  unfold unitsOf width
  split <;> rfl

/-- A text is as long as the units of its characters are many. -/
theorem length_encode (t : Text) : (encode t).length = units t := by
  induction t with
  | nil => rfl
  | cons c t ih =>
    show (unitsOf c ++ encode t).length = _
    rw [List.length_append, length_unitsOf, ih, units_cons]

/-! ## Occurrences -/

/-- A text stands in another one, and starts at a column of it. -/
def Occurs (whole t : Text) (column : Int) : Prop :=
  ∃ front back, whole = front ++ t ++ back ∧ column = units front

variable {whole middle t : Text} {column inner : Int}

theorem Occurs.nonneg (h : Occurs whole t column) : 0 ≤ column := by
  obtain ⟨front, _, -, rfl⟩ := h
  exact Int.natCast_nonneg _

/-- A text is cut out where it stands. -/
theorem slice_of_occurs (h : Occurs whole t column) :
    slice whole column.toNat (units t) = encode t := by
  obtain ⟨front, back, rfl, rfl⟩ := h
  unfold slice
  rw [Int.toNat_natCast, encode_append, encode_append, List.append_assoc, ← length_encode front,
    List.drop_left, ← length_encode t, List.take_left]

/-- What stands in a part of a text stands in the text, at the sum of the columns. -/
theorem Occurs.trans (h : Occurs whole middle column) (ht : Occurs middle t inner) :
    Occurs whole t (column + inner) := by
  obtain ⟨front, back, rfl, rfl⟩ := h
  obtain ⟨front', back', rfl, rfl⟩ := ht
  refine ⟨front ++ front', back' ++ back, by simp, ?_⟩
  rw [units_append]
  exact (Int.natCast_add _ _).symm

/-- A text with which another one ends stands as many columns in front of that end as it has
units. -/
theorem occurs_of_isSuffix (h : t <:+ whole) : Occurs whole t (units whole - units t) := by
  obtain ⟨front, rfl⟩ := h
  refine ⟨front, [], (List.append_nil _).symm, ?_⟩
  rw [units_append]
  omega

theorem occurs_of_isPrefix (h : t <+: whole) : Occurs whole t 0 := by
  obtain ⟨back, rfl⟩ := h
  exact ⟨[], back, rfl, rfl⟩

/-! ## Trimming -/

/-- What is left without trailing blanks is the front of the text. -/
theorem isPrefix_trimEnd (t : Text) : trimEnd t <+: t := by
  unfold trimEnd dropEndWhile
  rw [← List.reverse_suffix, List.reverse_reverse]
  exact List.dropWhile_suffix _

/-- Blanks behind a text are trimmed off with those that it ends in. -/
theorem trimEnd_append {gap : Text} (hgap : gap.all isBlank = true) (t : Text) :
    trimEnd (t ++ gap) = trimEnd t := by
  show ((t ++ gap).reverse.dropWhile isBlank).reverse = _
  rw [List.reverse_append, List.dropWhile_append_of_pos]
  · rfl
  · exact fun c hc => List.all_eq_true.mp hgap c (List.mem_reverse.mp hc)

theorem trimEnd_eq_self (h : ∀ c ∈ t.getLast?, isBlank c = false) : trimEnd t = t := by
  refine List.rdropWhile_eq_self_iff.mpr fun hne => ?_
  simp [h _ (List.getLast?_eq_getLast_of_ne_nil hne)]

/-- A text without trailing blanks does not end in one. -/
theorem isBlank_getLast?_trimEnd {c : Char} (hc : c ∈ (trimEnd t).getLast?) : isBlank c = false := by
  obtain ⟨hne, rfl⟩ := List.mem_getLast?_eq_getLast hc
  exact Bool.eq_false_iff.mpr (List.rdropWhile_last_not isBlank t hne)

/-- A text is what is left of it with blanks behind. -/
theorem trimEnd_split (t : Text) : ∃ gap, gap.all isBlank = true ∧ trimEnd t ++ gap = t := by
  refine ⟨(t.reverse.takeWhile isBlank).reverse, ?_, ?_⟩
  · rw [List.all_reverse, List.all_eq_true]
    exact fun c hc => List.mem_takeWhile_imp hc
  · show (t.reverse.dropWhile isBlank).reverse ++ _ = t
    rw [← List.reverse_append, List.takeWhile_append_dropWhile, List.reverse_reverse]

theorem isSuffix_trimStart (t : Text) : trimStart t <:+ t := List.dropWhile_suffix _

theorem startsBlank_trimStart (t : Text) : startsBlank (trimStart t) = false := by
  induction t with
  | nil => rfl
  | cons c t ih =>
    by_cases hc : isBlank c = true
    · rw [trimStart, List.dropWhile_cons_of_pos hc]
      exact ih
    · rw [trimStart, List.dropWhile_cons_of_neg hc]
      simpa [startsBlank] using hc

theorem startsBlank_of_isPrefix {s : Text} (h : s <+: t) (ht : startsBlank t = false) :
    startsBlank s = false := by
  obtain ⟨back, rfl⟩ := h
  cases s with
  | nil => rfl
  | cons c s => exact ht

/-- A trimmed text does not start with a blank. -/
theorem startsBlank_trim (t : Text) : startsBlank (trim t) = false :=
  startsBlank_of_isPrefix (isPrefix_trimEnd _) (startsBlank_trimStart t)

theorem trimStart_eq_self (h : startsBlank t = false) : trimStart t = t := by
  cases t with
  | nil => rfl
  | cons c t => exact List.dropWhile_cons_of_neg (by simpa [startsBlank] using h)

/-- Only the blanks in front of a text are trimmed off its start. -/
theorem trimStart_padded {gap : Text} (hgap : gap.all isBlank = true) (h : startsBlank t = false) :
    trimStart (gap ++ t) = t :=
  (List.dropWhile_append_of_pos (List.all_eq_true.mp hgap)).trans (trimStart_eq_self h)

theorem visible_of_any (h : t.any isBlank = false) : ∀ c ∈ t, isBlank c = false :=
  fun c hc => Bool.eq_false_iff.mpr (List.any_eq_false.mp h c hc)

/-- A text is cut where its characters stop to satisfy a predicate. -/
theorem cut_behind {p : Char → Bool} {front rest : Text} (hfront : front.all p = true)
    (hrest : ∀ c ∈ rest.head?, p c = false) :
    (front ++ rest).takeWhile p = front ∧ (front ++ rest).dropWhile p = rest := by
  have hall : ∀ c ∈ front, p c = true := List.all_eq_true.mp hfront
  rw [List.takeWhile_append_of_pos hall, List.dropWhile_append_of_pos hall]
  cases rest with
  | nil => exact ⟨List.append_nil front, rfl⟩
  | cons c rest =>
    have hc : ¬p c = true := by simp [hrest c rfl]
    rw [List.takeWhile_cons_of_neg hc, List.dropWhile_cons_of_neg hc]
    exact ⟨List.append_nil front, rfl⟩

/-- A text is cut at its first blank. -/
theorem cut_at_blank {word gap : Text} (hword : ∀ c ∈ word, isBlank c = false)
    (hgap : gap.all isBlank = true) (hne : gap ≠ []) (t : Text) :
    (word ++ (gap ++ t)).takeWhile (fun c => !isBlank c) = word ∧
      (word ++ (gap ++ t)).dropWhile (fun c => !isBlank c) = gap ++ t := by
  obtain ⟨c, rest, rfl⟩ := List.exists_cons_of_ne_nil hne
  have hc : isBlank c = true := List.all_eq_true.mp hgap c List.mem_cons_self
  refine cut_behind (List.all_eq_true.mpr fun d hd => by simp [hword d hd]) ?_
  rintro d ⟨⟩
  simp [hc]

/-- Only blanks at the end are cut off a text that does not start with one. -/
theorem isPrefix_trim (h : startsBlank t = false) : trim t <+: t := by
  unfold trim
  rw [trimStart_eq_self h]
  exact isPrefix_trimEnd t

/-- Nothing is left of blanks. -/
theorem trim_of_all (h : t.all isBlank = true) : trim t = [] := by
  have hstart : trimStart t = [] := List.dropWhile_eq_nil_iff.mpr (List.all_eq_true.mp h)
  unfold trim
  rw [hstart]
  rfl

/-- Nothing is left to be trimmed off a trimmed text. -/
theorem trim_trim (t : Text) : trim (trim t) = trim t := by
  rw [trim, trimStart_eq_self (startsBlank_trim t)]
  show dropEndWhile isBlank (dropEndWhile isBlank _) = dropEndWhile isBlank _
  unfold dropEndWhile
  rw [List.reverse_reverse, List.dropWhile_idempotent]

/-- A text without its outer blanks stands behind the leading ones. -/
theorem occurs_trim (t : Text) : Occurs t (trim t) (units (leadingBlanks t)) := by
  obtain ⟨back, hback⟩ := isPrefix_trimEnd (trimStart t)
  refine ⟨leadingBlanks t, back, ?_, rfl⟩
  unfold trim
  rw [List.append_assoc, hback, leadingBlanks_append_trimStart]

/-- A text without its outer blanks, and these blanks. -/
theorem trim_split (t : Text) :
    ∃ behind, behind.all isBlank = true ∧ t = leadingBlanks t ++ trim t ++ behind := by
  obtain ⟨behind, hbehind, hsplit⟩ := trimEnd_split (trimStart t)
  refine ⟨behind, hbehind, ?_⟩
  show t = leadingBlanks t ++ trimEnd (trimStart t) ++ behind
  rw [List.append_assoc, hsplit, leadingBlanks_append_trimStart]

theorem all_leadingBlanks (t : Text) : (leadingBlanks t).all isBlank = true :=
  List.all_eq_true.mpr fun _ hc => List.mem_takeWhile_imp hc

theorem leadingBlanks_eq_nil (h : startsBlank t = false) : leadingBlanks t = [] := by
  cases t with
  | nil => rfl
  | cons c t => exact List.takeWhile_cons_of_neg (by simpa [startsBlank] using h)

/-- Blanks around a text are trimmed off. -/
theorem trim_padded {front behind : Text} (hfront : front.all isBlank = true)
    (hbehind : behind.all isBlank = true) (t : Text) : trim (front ++ t ++ behind) = trim t := by
  have hstart : trimStart (front ++ t ++ behind) = trimStart (t ++ behind) := by
    rw [List.append_assoc]
    exact List.dropWhile_append_of_pos (List.all_eq_true.mp hfront)
  unfold trim
  rw [hstart]
  -- a text of blanks merges with the blanks around it, and nothing is left of any of them
  cases hall : t.all isBlank with
  | true =>
    have hblank : trimStart t = [] := List.dropWhile_eq_nil_iff.mpr (List.all_eq_true.mp hall)
    rw [show trimStart (t ++ behind) = trimStart behind from
      List.dropWhile_append_of_pos (List.all_eq_true.mp hall), hblank]
    have hnil : trimStart behind = [] := List.dropWhile_eq_nil_iff.mpr (List.all_eq_true.mp hbehind)
    rw [hnil]
  | false =>
    have hne : trimStart t ≠ [] := by
      intro hnil
      rw [List.all_eq_true.mpr (List.dropWhile_eq_nil_iff.mp hnil)] at hall
      cases hall
    have happend : trimStart (t ++ behind) = trimStart t ++ behind := by
      unfold trimStart
      rw [List.dropWhile_append, if_neg (by simpa [trimStart] using hne)]
    rw [happend, trimEnd_append hbehind]

/-- In front of a text that does not start with a blank stand the blanks that are put there. -/
theorem leadingBlanks_padded {front : Text} (hfront : front.all isBlank = true)
    (h : startsBlank t = false) : leadingBlanks (front ++ t) = front := by
  show (front ++ t).takeWhile isBlank = front
  rw [List.takeWhile_append_of_pos (List.all_eq_true.mp hfront)]
  show front ++ leadingBlanks t = front
  rw [leadingBlanks_eq_nil h, List.append_nil]

/-! ## The end of a line -/

/-- A value runs up to the first line break behind the place where it starts. -/
def RunsOn (line value : Text) : Prop := ∃ rest, rest <:+ line ∧ visible rest = value

theorem RunsOn.of_isSuffix (h : RunsOn middle t) (hmiddle : middle <:+ whole) : RunsOn whole t := by
  obtain ⟨rest, hrest, hvisible⟩ := h
  exact ⟨rest, hrest.trans hmiddle, hvisible⟩

/-- What is left out of such a value is a line break with all that follows it. -/
theorem RunsOn.split (h : RunsOn whole t) :
    ∃ front dropped, whole = front ++ t ++ dropped ∧ t.any isLineBreak = false ∧
      ∀ c ∈ dropped.head?, isLineBreak c = true := by
  obtain ⟨rest, ⟨front, rfl⟩, rfl⟩ := h
  refine ⟨front, rest.dropWhile (fun c => !isLineBreak c), ?_, ?_, ?_⟩
  · unfold visible
    rw [List.append_assoc, List.takeWhile_append_dropWhile]
  · unfold visible
    rw [List.any_eq_false]
    intro c hc
    simpa using List.mem_takeWhile_imp hc
  · intro c hc
    have hfirst := List.head?_dropWhile_not (fun c => !isLineBreak c) rest
    rw [Option.mem_def.mp hc] at hfirst
    simpa using hfirst

/-! ## Two parts -/

/-- Every way to write a text as two parts is a cut. -/
theorem mem_cuts (first rest : Text) : (first, rest) ∈ cuts (first ++ rest) := by
  induction first with
  | nil => cases rest <;> simp [cuts]
  | cons c first ih =>
    rw [List.cons_append, cuts]
    exact List.mem_append_left _ (List.mem_map.mpr ⟨(first, rest), ih, rfl⟩)

/-- What a blank cut takes off is blank. -/
theorem all_of_mem_blankCuts {least : Nat} {t : Text} {cut : Text × Text}
    (h : cut ∈ blankCuts least t) : cut.1.all isBlank = true := by
  induction t generalizing least cut with
  | nil =>
    rw [blankCuts] at h
    split at h
    · rw [List.mem_singleton.mp h]
      rfl
    · exact absurd h List.not_mem_nil
  | cons c t ih =>
    rw [blankCuts] at h
    rcases List.mem_append.mp h with h | h
    · split at h
      · rename_i hblank
        -- the cut takes off the first character and then what a cut of the rest does
        obtain ⟨inner, hinner, rfl⟩ := List.mem_map.mp h
        show (c :: inner.1).all isBlank = true
        rw [List.all_cons, hblank, ih hinner]
        rfl
      · exact absurd h List.not_mem_nil
    · split at h
      · rw [List.mem_singleton.mp h]
        rfl
      · exact absurd h List.not_mem_nil

/-- Whatever is left behind no blank at all is one of the ways to cut blanks off. -/
theorem nil_mem_blankCuts (t : Text) : (([] : Text), t) ∈ blankCuts 0 t := by
  cases t <;> simp [blankCuts]

/-- The longest blanks are tried first: all that stand in front of a text. -/
theorem blankCuts_padded {gap : Text} {least : Nat} (hgap : gap.all isBlank = true)
    (hleast : least ≤ gap.length) (h : startsBlank t = false) :
    ∃ others, blankCuts least (gap ++ t) = (gap, t) :: others := by
  induction gap generalizing least with
  | nil =>
    obtain rfl : least = 0 := Nat.le_zero.mp hleast
    cases t with
    | nil => exact ⟨[], rfl⟩
    | cons c t =>
      have hc : isBlank c = false := h
      exact ⟨[], by simp [blankCuts, hc]⟩
  | cons c gap ih =>
    obtain ⟨hc, hgap⟩ := Bool.and_eq_true_iff.mp hgap
    obtain ⟨others, hothers⟩ := ih hgap (Nat.sub_le_iff_le_add.mpr hleast)
    rw [List.cons_append, blankCuts, if_pos hc, hothers, List.map_cons, List.cons_append]
    exact ⟨_, rfl⟩

/-- Blanks can only be cut off a text that starts with one. -/
theorem startsBlank_of_mem_blankCuts {cut : Text × Text} (h : cut ∈ blankCuts 1 t) :
    startsBlank t = true := by
  cases t with
  | nil => exact absurd h List.not_mem_nil
  | cons c t =>
    by_cases hc : isBlank c = true
    · exact hc
    · rw [blankCuts, if_neg hc] at h
      exact absurd h List.not_mem_nil

/-- A search through the ways to cut a text finds the longest first part with which it succeeds. -/
theorem findSome?_cuts {β : Type} {f : Text × Text → Option β} {first rest : Text} {b : β}
    (hfound : f (first, rest) = some b)
    (hlonger : ∀ c more behind, rest = c :: (more ++ behind) → f (first ++ c :: more, behind) = none) :
    (cuts (first ++ rest)).findSome? f = some b := by
  induction first generalizing f with
  | nil =>
    cases rest with
    | nil => simp [cuts, hfound]
    | cons c rest =>
      rw [List.nil_append, cuts, List.findSome?_append, List.findSome?_map,
        List.findSome?_eq_none_iff.mpr, Option.none_or]
      · simpa using hfound
      · rintro ⟨more, behind⟩ hmem
        exact hlonger c more behind (congrArg (c :: ·) (append_of_mem_cuts hmem).symm)
  | cons c first ih =>
    rw [List.cons_append, cuts, List.findSome?_append, List.findSome?_map, ih hfound, Option.some_or]
    exact hlonger

/-- A search that stops in front of a blank has failed behind it. -/
theorem findSome?_blankCuts {β : Type} {f : Text × Text → Option β} {least : Nat} {t : Text} {b : β}
    (h : (blankCuts least t).findSome? f = some b) :
    ∃ gap rest, gap ++ rest = t ∧ f (gap, rest) = some b ∧
      ∀ c rest', rest = c :: rest' → isBlank c = true → f (gap ++ [c], rest') = none := by
  induction t generalizing least f with
  | nil =>
    rw [blankCuts] at h
    split at h
    · refine ⟨[], [], rfl, by simpa using h, fun c rest' hrest => ?_⟩
      cases hrest
    · cases h
  | cons c t ih =>
    rw [blankCuts, List.findSome?_append] at h
    by_cases hblank : isBlank c = true
    · rw [if_pos hblank, List.findSome?_map] at h
      rcases Option.or_eq_some_iff.mp h with hlonger | ⟨hlonger, h⟩
      · obtain ⟨gap, rest, hcut, hfound, hnext⟩ := ih hlonger
        exact ⟨c :: gap, rest, congrArg (c :: ·) hcut, hfound, hnext⟩
      · by_cases hleast : least = 0
        · rw [if_pos hleast] at h
          refine ⟨[], c :: t, rfl, by simpa using h, fun d rest' hrest _ => ?_⟩
          cases hrest
          -- one more blank has been tried
          rw [hleast] at hlonger
          exact List.findSome?_eq_none_iff.mp hlonger ([], t) (nil_mem_blankCuts t)
        · rw [if_neg hleast] at h
          cases h
    · rw [if_neg hblank, List.findSome?_nil, Option.none_or] at h
      split at h
      · refine ⟨[], c :: t, rfl, by simpa using h, fun d rest' hrest hd => ?_⟩
        cases hrest
        exact absurd hd hblank
      · cases h

/-- The same for a search that gives back the two parts. -/
theorem find?_blankCuts {p : Text × Text → Bool} {least : Nat} {t : Text} {cut : Text × Text}
    (h : (blankCuts least t).find? p = some cut) :
    cut.1 ++ cut.2 = t ∧ p cut = true ∧
      ∀ c rest, cut.2 = c :: rest → isBlank c = true → p (cut.1 ++ [c], rest) = false := by
  rw [List.find?_eq_findSome?_guard] at h
  obtain ⟨gap, rest, hcut, hfound, hnext⟩ := findSome?_blankCuts h
  obtain ⟨rfl, hp⟩ := Option.guard_eq_some_iff.mp hfound
  refine ⟨hcut, hp, fun c rest' hrest hblank => ?_⟩
  have hfailed := hnext c rest' hrest hblank
  simpa using hfailed

end Stylesheet.Text
