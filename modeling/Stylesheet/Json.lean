import Stylesheet.Text.Cut
import Stylesheet.Text.Decimal
import Stylesheet.Text.Quoted

/-!
# JSON values

- `Json`: the values that the library writes. Numbers are integers, and an object keeps its fields
  in the order given.
- `Json.render`: the compact text of a value, without any blank outside strings.
- `Json.object`: an object some of whose fields may be missing.
- `Json.arranged`: the order that fields take in an object which they are put into one after
  another, as `transformStylesheetModule` puts the imports. A name that is the place of an item in a
  list comes in front of all other names.
-/

namespace Stylesheet

/-- A JSON value with integer numbers and ordered fields. -/
inductive Json where
  | null
  | bool (value : Bool)
  | number (value : Int)
  | text (value : Text)
  | list (items : List Json)
  | record (fields : List (Text × Json))
deriving Inhabited

namespace Json

/-- A record of those fields that have a value. A field without one is left out, not null. -/
def object (fields : List (Text × Option Json)) : Json :=
  .record (fields.filterMap (fun (name, value) => value.map (name, ·)))

/-- A value that is null where it is missing. -/
def nullable {α : Type} (encode : α → Json) : Option α → Json
  | none => .null
  | some a => encode a

/-! ### The order of fields -/

/-- The place in a list that a name stands for: the number below `2 ^ 32 - 1` whose decimal text it
is, if there is such a number. -/
def place? (name : Text) : Option Nat :=
  -- Writing the number out again rules out signs, leading zeros and characters that are no digits.
  let n := Nat.ofDigitChars 10 name 0
  if n < 0xFFFFFFFF ∧ Nat.toDigits 10 n = name then some n else none

/-- Whether a field comes in front of another one whatever order they were put in: places come in
front of other names, and the lower place in front of the higher one. -/
def precedes (name other : Text) : Bool :=
  match place? name, place? other with
  | some n, some m => n < m
  | some _, none => true
  | none, _ => false

/-- Puts a field in front of others that were put in later, but behind those that precede it. -/
def enter {α : Type} (field : Text × α) : List (Text × α) → List (Text × α)
  | [] => [field]
  | first :: rest =>
    -- All of them were put in later: only what precedes this field in any case stays in front.
    if precedes first.1 field.1 then first :: enter field rest else field :: first :: rest

/-- The fields of an object in the order that it lists them: first the places in ascending order,
and then the other names in the order in which they were put in. -/
def arranged {α : Type} (fields : List (Text × α)) : List (Text × α) := fields.foldr enter []

/-! ### Values -/

/-- A list of texts. -/
def texts (ts : List Text) : Json := .list (ts.map .text)

mutual

/-- The compact text of a value. -/
def render : Json → Text
  | .null => "null"
  | .bool true => "true"
  | .bool false => "false"
  | .number n => Text.ofInt n
  | .text t => Text.quote t
  | .list items => ['['] ++ Text.join [','] (renderItems items) ++ [']']
  | .record fields => ['\x7b'] ++ Text.join [','] (renderFields fields) ++ ['\x7d']

/-- The texts of the items of a list. -/
def renderItems : List Json → List Text
  | [] => []
  | item :: items => render item :: renderItems items

/-- The texts of the fields of a record, each a quoted name and a value. -/
def renderFields : List (Text × Json) → List Text
  | [] => []
  | (name, value) :: fields => (Text.quote name ++ [':'] ++ render value) :: renderFields fields

end

theorem renderItems_eq_map (items : List Json) : renderItems items = items.map render := by
  induction items with
  | nil => rfl
  | cons item items ih => simp [renderItems, ih]

theorem renderFields_eq_map (fields : List (Text × Json)) :
    renderFields fields = fields.map (fun (name, value) => Text.quote name ++ [':'] ++ render value) := by
  induction fields with
  | nil => rfl
  | cons field fields ih => simp [renderFields, ih]

end Json

end Stylesheet
