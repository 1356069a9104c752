import Stylesheet.Json
import Stylesheet.Number

/-!
# Reading JSON texts

The value that a JSON text stands for, read from left to right. A reader takes a text, reads the
first part of it, and gives what this part stands for and the rest.

- `Json.characters?`: the characters of a string and its closing quote, with every kind of escape.
- `Json.magnitude?`: a number without a sign. It is rounded to 53 significant bits as numbers are,
  and refused if it is no whole number.
- `Json.enclosed?`: elements between brackets, separated by commas.
- `Json.value?`: a value. A record that gives a field twice is refused.
- `Json.decode?`: the value of a text that holds one and nothing else but blanks.
-/

namespace Stylesheet.Json

/-- Reads a part of a text, and gives the rest along with it. -/
abbrev Reader (α : Type) := Text → Option (α × Text)

/-! ## Blanks -/

/-- Whether a character may stand between the parts of a value. -/
def isSpace (c : Char) : Bool := c == ' ' || c == '\t' || c == '\n' || c == '\r'

/-- The text without the blanks in front. -/
def skip (t : Text) : Text := t.dropWhile isSpace

/-! ## Strings -/

/-- The number that a hexadecimal digit stands for. -/
def hexValue? (c : Char) : Option Nat :=
  if c.isDigit then some (c.toNat - 48)
  else if 'a' ≤ c ∧ c ≤ 'f' then some (c.toNat - 87)
  else if 'A' ≤ c ∧ c ≤ 'F' then some (c.toNat - 55)
  else none

/-- The character that four hexadecimal digits give, if these are not the number of half a
character. -/
def numbered? (a b c d : Char) : Option Char :=
  (hexValue? a).bind fun a => (hexValue? b).bind fun b => (hexValue? c).bind fun c =>
    (hexValue? d).bind fun d =>
      let n := ((a * 16 + b) * 16 + c) * 16 + d
      if n.isValidChar then some (Char.ofNat n) else none

/-- The character that another one stands for behind a backslash. -/
def unescaped? (c : Char) : Option Char :=
  if c = '"' ∨ c = '\\' ∨ c = '/' then some c
  else if c = 'b' then some '\x08'
  else if c = 't' then some '\t'
  else if c = 'n' then some '\n'
  else if c = 'f' then some '\x0c'
  else if c = 'r' then some '\r'
  else none

/-- Puts a character in front of those that are read behind it. -/
def prepend (first : Option Char) (behind : Option (Text × Text)) : Option (Text × Text) :=
  first.bind fun c => behind.map fun read => (c :: read.1, read.2)

/-- Reads the characters of a string, whose opening quote is read, up to its closing quote. -/
def characters? : Reader Text
  | [] => none
  | '"' :: t => some ([], t)
  | '\\' :: 'u' :: a :: b :: c :: d :: t => prepend (numbered? a b c d) (characters? t)
  | '\\' :: c :: t => prepend (unescaped? c) (characters? t)
  | c :: t => prepend (if c.toNat < 0x20 then none else some c) (characters? t)

/-! ## Numbers -/

/-- Reads digits, at least one. -/
def digits? : Reader Text := fun t =>
  if (t.takeWhile Char.isDigit).isEmpty then none
  else some (t.takeWhile Char.isDigit, t.dropWhile Char.isDigit)

/-- Reads the digits in front of a point, the first of which is a zero only if it is alone. -/
def whole? : Reader Text := fun t =>
  (digits? t).filter fun read => read.1.head? != some '0' || read.1.length == 1

/-- Reads the digits behind a point, if there is one. -/
def fraction? : Reader Text
  | '.' :: t => digits? t
  | t => some ([], t)

/-- The number that digits stand for. -/
def ofDigits (digits : Text) : Nat := Nat.ofDigitChars 10 digits 0

/-- Reads the number of an exponent, which may have a sign. -/
def signed? : Reader Int
  | '+' :: t => (digits? t).map fun read => ((ofDigits read.1 : Int), read.2)
  | '-' :: t => (digits? t).map fun read => (-(ofDigits read.1 : Int), read.2)
  | t => (digits? t).map fun read => ((ofDigits read.1 : Int), read.2)

/-- Reads an exponent, if there is one. -/
def exponent? : Reader Int
  | 'e' :: t => signed? t
  | 'E' :: t => signed? t
  | t => some (0, t)

/-- The product of a number and a power of ten, if it is a whole number. -/
def scaled? (n : Nat) : Int → Option Nat
  | .ofNat places => some (n * Nat.pow 10 places)
  | .negSucc places =>
    if n % Nat.pow 10 (places + 1) = 0 then some (n / Nat.pow 10 (places + 1)) else none

/-- Reads a number without a sign. -/
def magnitude? : Reader Nat := fun t =>
  (whole? t).bind fun whole => (fraction? whole.2).bind fun fraction =>
    (exponent? fraction.2).bind fun exponent =>
      (scaled? (ofDigits (whole.1 ++ fraction.1)) (exponent.1 - fraction.1.length)).map fun n =>
        (Number.nearest n, exponent.2)

/-! ## Lists and records -/

variable {α : Type}

/-- Reads elements with commas between them and the bracket behind them. -/
def elements? (element : Reader α) (close : Char) : Nat → Reader (List α)
  | 0, _ => none
  | count + 1, t =>
    (element t).bind fun first =>
      match skip first.2 with
      | [] => none
      | c :: t =>
        if c = ',' then (elements? element close count t).map fun more => (first.1 :: more.1, more.2)
        else if c = close then some ([first.1], t)
        else none

/-- Reads the elements between two brackets, the first of which is read. -/
def enclosed? (element : Reader α) (close : Char) (count : Nat) : Reader (List α) := fun t =>
  if (skip t).head? = some close then some ([], (skip t).tail) else elements? element close count t

/-- Reads a field: its name, a colon and its value. -/
def field? (value : Reader Json) : Reader (Text × Json) := fun t =>
  match skip t with
  | '"' :: t =>
    (characters? t).bind fun name =>
      match skip name.2 with
      | ':' :: t => (value t).map fun read => ((name.1, read.1), read.2)
      | _ => none
  | _ => none

/-- The record of fields, none of which is given twice. -/
def record? (fields : List (Text × Json)) : Option Json :=
  if (fields.map Prod.fst).Nodup then some (.record fields) else none

/-! ## Values -/

/-- Reads a word that stands for a value. -/
def word? (word : Text) (value : Json) : Reader Json := fun t =>
  if word.isPrefixOf t then some (value, t.drop word.length) else none

/-- Reads a value. The first argument bounds how deep values are nested, and how many of them make
up a list. -/
def value? : Nat → Reader Json
  | 0, _ => none
  | depth + 1, t =>
    match skip t with
    | [] => none
    | c :: rest =>
      if c = '"' then (characters? rest).map fun read => (.text read.1, read.2)
      else if c = '[' then
        (enclosed? (value? depth) ']' depth rest).map fun read => (.list read.1, read.2)
      else if c = '\x7b' then
        (enclosed? (field? (value? depth)) '\x7d' depth rest).bind fun read =>
          (record? read.1).map fun record => (record, read.2)
      else if c = '-' then (magnitude? rest).map fun read => (.number (-(read.1 : Int)), read.2)
      else if c.isDigit then (magnitude? (c :: rest)).map fun read => (.number read.1, read.2)
      else
        (word? "null" .null (c :: rest)).or <|
          (word? "true" (.bool true) (c :: rest)).or (word? "false" (.bool false) (c :: rest))

/-- The value of a text that holds nothing else. No more values are nested or listed in it than it
has characters. -/
def decode? (t : Text) : Option Json :=
  (value? t.length t).bind fun read => if (skip read.2).isEmpty then some read.1 else none

/-- A list of a number that is written with an exponent, and a record. -/
example : decode? " [ -1.50E+3, \x7b \"a\\u0041\\n\" : [ ] , \"b\" : null \x7d ]" =
    some (.list [.number (-1500), .record [("aA\n", .list []), ("b", .null)]]) := by
  rfl

/-- A field that is given twice, and a number that is no whole number. -/
example : decode? "\x7b\"a\":1,\"a\":2\x7d" = none ∧ decode? "1.5" = none := by
  exact ⟨rfl, rfl⟩

end Stylesheet.Json
