import Stylesheet.Text.Basic

/-!
# Quoted text

A text written between double quotes, so that it holds no control character and no quote of its
own.

- `Text.escaped`: the written form of one character. Five control characters, the quote and the
  backslash have a letter of their own; the other control characters are given by four lowercase
  hexadecimal digits; every other character stands for itself.
- `Text.quote`: the written form of a text.
-/

namespace Stylesheet.Text

/-- The lowercase hexadecimal digit of a number below sixteen. -/
def hexDigit (n : Nat) : Char := Char.ofNat (if n < 10 then 48 + n else 87 + n)

/-- How a character is written between double quotes. -/
def escaped (c : Char) : Text :=
  if c = '"' then ['\\', '"']
  else if c = '\\' then ['\\', '\\']
  else if c = '\x08' then ['\\', 'b']
  else if c = '\t' then ['\\', 't']
  else if c = '\n' then ['\\', 'n']
  else if c = '\x0c' then ['\\', 'f']
  else if c = '\r' then ['\\', 'r']
  else if c.toNat < 0x20 then
    ['\\', 'u', '0', '0', hexDigit (c.toNat / 16), hexDigit (c.toNat % 16)]
  else [c]

/-- The text between double quotes, each character escaped as it needs. -/
def quote (t : Text) : Text := ['"'] ++ t.flatMap escaped ++ ['"']

end Stylesheet.Text
