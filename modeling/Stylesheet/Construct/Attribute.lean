import Stylesheet.Construct.Basic

/-!
# Attributes

An attribute is written `:name value` or `name: value`, and with an equals sign, `:name= value` or
`name = value`, if its value is an expression.

- `Attribute.prefixed?`: reads a line of the first form (`ATTRIBUTE`).
- `Attribute.isInline`: whether a line is taken for one of the second form rather than for a rule
  (`ATTRIBUTE_INLINE_MATCHER`).
- `Attribute.inline?`: reads a line of the second form (`ATTRIBUTE_INLINE`). Both forms are read for
  `parseAttribute`.

A value runs up to the first line break behind the blanks in front of it.
-/

namespace Stylesheet.Attribute

/-- Whether a character may stand in the name of an attribute. -/
def isNameChar (c : Char) : Bool := !(Text.isBlank c || c == '=' || c == ':' || c == '"')

/-- The text behind an equals sign that is a word of its own. -/
def assigned? : Text → Option Text
  | '=' :: t => if Text.endsWord t then some (Text.trimStart t) else none
  | _ => none

/-- An attribute of a line whose value is an expression, as `parseAttribute` makes it. -/
def computed (line name value : Text) (form : AttributeForm) : Construct Slot :=
  .attribute name (.expression (.atEnd line (Text.visible value))) form

/-- An attribute whose value is text. -/
def literal (name value : Text) (form : AttributeForm) : Construct Slot :=
  .attribute name (.literal (Text.visible value)) form

/-! ## A colon in front -/

/-- Reads a line such as `:name value` or `:name= value` (`ATTRIBUTE`). -/
def prefixed? (line : Text) : Option (Construct Slot) :=
  match line with
  | ':' :: t =>
    let name := t.takeWhile isNameChar
    let rest := t.dropWhile isNameChar
    if name.isEmpty then none
    else
      match assigned? (Text.trimStart rest) with
      | some value => some (computed line name value .prefixed)
      | none =>
        -- An equals sign that is no word of its own belongs to the text.
        if Text.endsWord rest then some (literal name (Text.trimStart rest) .prefixed) else none
  | _ => none

/-! ## A colon behind -/

/-- Whether a character may stand in the word that an inline attribute starts with. -/
def isHeadChar (c : Char) : Bool := !(Text.isBlank c || c == ':' || c == '"')

/-- Whether a text starts with a colon or an equals sign that is a word of its own. -/
def startsWithSign : Text → Bool
  | c :: t => (c == '=' || c == ':') && Text.endsWord t
  | [] => false

/-- Whether a line is taken for an inline attribute (`ATTRIBUTE_INLINE_MATCHER`): its first word has
a colon or an equals sign behind it, or ends in an equals sign and is longer than that. -/
def isInline (line : Text) : Bool :=
  let word := line.takeWhile isHeadChar
  let rest := line.dropWhile isHeadChar
  -- An equals sign may stand inside the first word, a colon may not.
  !word.isEmpty &&
    ((2 ≤ word.length && word.getLast? == some '=' && Text.endsWord rest) ||
      startsWithSign (Text.trimStart rest))

/-- Reads a line such as `name: value` or `name = value` (`ATTRIBUTE_INLINE`). -/
def inline? (line : Text) : Option (Construct Slot) :=
  let name := line.takeWhile isNameChar
  let rest := line.dropWhile isNameChar
  if name.isEmpty then none
  else
    match assigned? (Text.trimStart rest) with
    | some value => some (computed line name value .inline)
    | none =>
      match rest with
      -- The colon has to follow the name at once; only an equals sign may stand behind blanks.
      | ':' :: t => if Text.endsWord t then some (literal name (Text.trimStart t) .inline) else none
      | _ => none

end Stylesheet.Attribute
