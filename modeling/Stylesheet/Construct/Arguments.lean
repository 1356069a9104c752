import Stylesheet.Construct.Basic
import Stylesheet.Expression.Quoting
import Stylesheet.Number

/-!
# Argument lists

An argument list stands in round brackets. Commas separate its entries, except inside brackets and
strings (`splitMixinArguments`).

- `Arguments.entries`: the pieces of a text between such commas. Joined with commas they give the
  text again (`join_entries`).
- `Arguments.slotsBy`: the pieces without their outer blanks, each at its column.
- `Arguments.split?`: the slots of an argument list in a line, whose columns are exact.
  `Arguments.splitRounded?`: the same from a column that is given and may be large.
-/

namespace Stylesheet.Arguments

/-- A place in an argument list: inside or outside a string, and how many brackets are open. A
closing bracket too many makes the number negative, as it does the counter of
`splitMixinArguments`. -/
structure Place where
  quoting : Quoting := .outside
  depth : Int := 0
deriving DecidableEq, Repr

namespace Place

/-- Whether a comma at this place separates two entries. -/
def separates (place : Place) : Bool := place.quoting == .outside && place.depth == 0

/-- By how much a character changes the number of open brackets. Round and square ones count
alike. -/
def change (c : Char) : Int :=
  if c = '(' ∨ c = '[' then 1 else if c = ')' ∨ c = ']' then -1 else 0

/-- The place behind a character. -/
def next (place : Place) (c : Char) : Place :=
  -- Brackets inside a string do not count.
  { quoting := place.quoting.next c
    depth := if place.quoting = .outside then place.depth + change c else place.depth }

end Place

/-- The pieces of a text between the commas that separate entries. -/
def entriesFrom (place : Place) : Text → List Text
  | [] => [[]]
  | c :: t =>
    if c = ',' ∧ place.separates = true then [] :: entriesFrom place t
    else Text.extendFirst c (entriesFrom (place.next c) t)

/-- The entries of the inside of an argument list. -/
def entries (inner : Text) : List Text := entriesFrom {} inner

theorem entriesFrom_ne_nil (place : Place) (t : Text) : entriesFrom place t ≠ [] := by
  cases t with
  | nil => simp [entriesFrom]
  | cons c t =>
    simp only [entriesFrom]
    split
    · simp
    · cases entriesFrom (place.next c) t <;> simp [Text.extendFirst]

theorem join_entriesFrom (place : Place) (t : Text) :
    Text.join [','] (entriesFrom place t) = t := by
  induction t generalizing place with
  | nil => rfl
  | cons c t ih =>
    simp only [entriesFrom]
    split
    · rename_i h
      obtain ⟨rfl, -⟩ := h
      rw [Text.join_nil_cons (entriesFrom_ne_nil place t), ih]
      rfl
    · rw [Text.join_extendFirst (entriesFrom_ne_nil _ t), ih]

theorem join_entries (inner : Text) : Text.join [','] (entries inner) = inner :=
  join_entriesFrom {} inner

/-- Entries without their outer blanks, each at its column, with columns added up by `plus`. The
first entry stands `start` units behind `column`, and one comma stands between each two. -/
def slotsBy (plus : Int → Int → Int) (column : Int) : Nat → List Text → List Slot
  | _, [] => []
  | start, entry :: entries =>
    -- The column is that of the first character that is not blank, in an empty entry that of its
    -- end.
    ⟨Text.trim entry, plus (plus column start) (Text.units (Text.leadingBlanks entry))⟩ ::
      slotsBy plus column (start + Text.units entry + 1) entries

/-- The inside of a text that starts with an opening round bracket and ends with a closing one. -/
def inner? : Text → Option Text
  | '(' :: t => if t.getLast? = some ')' then some t.dropLast else none
  | _ => none

/-- The slots of an argument list that starts at `column` (`splitMixinArguments`), with columns
added up by `plus`, or nothing if the text is no argument list. Blanks around the brackets do not
count, and a text of blanks is a list without entries. -/
def splitBy? (plus : Int → Int → Int) (column : Int) (t : Text) : Option (List Slot) :=
  let trimmed := Text.trim t
  -- No brackets at all: a mixin without arguments.
  if trimmed.isEmpty then some []
  else
    -- Brackets around nothing hold no entry; around a blank they hold one, which is empty.
    (inner? trimmed).map (fun inner =>
      if inner.isEmpty then []
      else slotsBy plus (plus (plus column (Text.units (Text.leadingBlanks t))) 1) 0 (entries inner))

/-- The slots of an argument list that starts at a column of its line. -/
def split? (column : Int) (t : Text) : Option (List Slot) := splitBy? (· + ·) column t

/-- The slots of an argument list that starts at any column, however large: each sum is rounded. -/
def splitRounded? (column : Int) (t : Text) : Option (List Slot) := splitBy? Number.plus column t

end Stylesheet.Arguments
