import Stylesheet.Text.Basic

/-!
# Cutting text

Trimming, splitting at a separator, and the ways to cut a text in two.

- `Text.trimStart`, `Text.trimEnd`, `Text.trim`: without the blanks at one end or at both.
- `Text.pieces`: the pieces between the occurrences of a separator. Putting the separator back
  between them gives the text again (`join_pieces`).
- `Text.cuts`, `Text.blankCuts`: every way to write a text as a first and a second part, where for
  `blankCuts` the first part is blank; the longest first part comes first.
- `Text.visible`: what stands before the first line break.
-/

namespace Stylesheet.Text

/-! ## Trimming -/

/-- Without the characters at the end that satisfy `p`. -/
def dropEndWhile (p : Char → Bool) (t : Text) : Text := (t.reverse.dropWhile p).reverse

/-- Without leading blanks. -/
def trimStart (t : Text) : Text := t.dropWhile isBlank

/-- Without trailing blanks. -/
def trimEnd (t : Text) : Text := dropEndWhile isBlank t

/-- Without blanks at either end. -/
def trim (t : Text) : Text := trimEnd (trimStart t)

/-- The leading blanks. -/
def leadingBlanks (t : Text) : Text := t.takeWhile isBlank

theorem leadingBlanks_append_trimStart (t : Text) : leadingBlanks t ++ trimStart t = t :=
  List.takeWhile_append_dropWhile

/-- What stands before the first line break. -/
def visible (t : Text) : Text := t.takeWhile (fun c => !isLineBreak c)

/-! ## Tests on the first character -/

/-- Whether the text starts with a blank. -/
def startsBlank : Text → Bool
  | [] => false
  | c :: _ => isBlank c

/-- Whether a word may end in front of the text: nothing follows, or a blank. -/
def endsWord : Text → Bool
  | [] => true
  | c :: _ => isBlank c

/-- Whether the text starts with a character that is not a line break. -/
def startsVisible : Text → Bool
  | [] => false
  | c :: _ => !isLineBreak c

/-! ## Two parts -/

/-- Every way to cut a text in two, the longest first part first: the order in which a greedy
pattern tries them. -/
def cuts : Text → List (Text × Text)
  | [] => [([], [])]
  | c :: t => (cuts t).map (fun (first, rest) => (c :: first, rest)) ++ [([], c :: t)]

/-- Every way to cut at least `least` leading blanks off a text, most blanks first. -/
def blankCuts (least : Nat) : Text → List (Text × Text)
  | [] => if least = 0 then [([], [])] else []
  | c :: t =>
    (if isBlank c then (blankCuts (least - 1) t).map (fun (gap, rest) => (c :: gap, rest)) else []) ++
      (if least = 0 then [([], c :: t)] else [])

/-- The two parts of a cut make up the text. -/
theorem append_of_mem_cuts {t : Text} {cut : Text × Text} (h : cut ∈ cuts t) :
    cut.1 ++ cut.2 = t := by
  induction t generalizing cut with
  | nil => simp [cuts] at h; simp [h]
  | cons c t ih =>
    simp only [cuts, List.mem_append, List.mem_map, List.mem_singleton] at h
    rcases h with ⟨inner, hinner, rfl⟩ | rfl
    · simp [ih hinner]
    · rfl

/-- The two parts of a blank cut make up the text. -/
theorem append_of_mem_blankCuts {least : Nat} {t : Text} {cut : Text × Text}
    (h : cut ∈ blankCuts least t) : cut.1 ++ cut.2 = t := by
  induction t generalizing least cut with
  | nil => simp [blankCuts] at h; simp [h]
  | cons c t ih =>
    simp only [blankCuts, List.mem_append] at h
    rcases h with h | h
    · split at h
      · obtain ⟨inner, hinner, rfl⟩ := List.mem_map.1 h
        simp [ih hinner]
      · simp at h
    · split at h
      · simp only [List.mem_singleton] at h
        simp [h]
      · simp at h

/-! ## Pieces between separators -/

/-- Puts a character in front of the first of a list of pieces. -/
def extendFirst (c : Char) : List Text → List Text
  | [] => [[c]]
  | piece :: pieces => (c :: piece) :: pieces

/-- The pieces of a text between the occurrences of a separator, empty pieces included. -/
def pieces (separator : Char) : Text → List Text
  | [] => [[]]
  | c :: t => if c = separator then [] :: pieces separator t else extendFirst c (pieces separator t)

/-- Texts joined by a text between each two of them. -/
def join (between : Text) (texts : List Text) : Text := (texts.intersperse between).flatten

theorem pieces_ne_nil (separator : Char) (t : Text) : pieces separator t ≠ [] := by
  cases t with
  | nil => simp [pieces]
  | cons c t =>
    simp only [pieces]
    split
    · simp
    · cases pieces separator t <;> simp [extendFirst]

theorem join_nil_cons {between : Text} {texts : List Text} (h : texts ≠ []) :
    join between ([] :: texts) = between ++ join between texts := by
  cases texts with
  | nil => exact absurd rfl h
  | cons text texts => simp [join]

theorem join_extendFirst {between : Text} {texts : List Text} (h : texts ≠ []) (c : Char) :
    join between (extendFirst c texts) = c :: join between texts := by
  match texts, h with
  | [text], _ => simp [join, extendFirst]
  | text :: next :: texts, _ => simp [join, extendFirst]

theorem join_pieces (separator : Char) (t : Text) : join [separator] (pieces separator t) = t := by
  induction t with
  | nil => rfl
  | cons c t ih =>
    simp only [pieces]
    split
    · rename_i h
      rw [join_nil_cons (pieces_ne_nil separator t), ih, h]
      rfl
    · rw [join_extendFirst (pieces_ne_nil separator t), ih]

/-! ## Lines -/

/-- Every line break of a carriage return, with or without a line feed behind it, becomes a single
line feed. -/
def unifyBreaks : Text → Text
  | '\r' :: '\n' :: t => '\n' :: unifyBreaks t
  | c :: t => (if c = '\r' then '\n' else c) :: unifyBreaks t
  | [] => []

end Stylesheet.Text
