import Stylesheet.Construct.Basic

/-!
# Directives

A directive is written `@keyword value`.

- `Directive.ofText`: the keyword and the value of a directive (`splitDirective`).
- `Keyword`: the keywords that have a meaning of their own (`DIRECTIVE_HANDLERS`).
- `Import.entries`: the entries of an import (`parseImport`).
- `Alternative.test?`: the test of an alternative branch (`parseElse`).
-/

namespace Stylesheet

/-! ## Keyword and value -/

/-- A directive cut at the first blanks (`DirectiveLine`). -/
structure Directive where
  keyword : Text
  /-- What follows the blanks behind the keyword, if there are any. -/
  value : Option Text
  /-- The column of the value. -/
  column : Int
deriving DecidableEq, Repr

/-- The directive of a line, whose first unit is not looked at (`splitDirective`). -/
def Directive.ofText (line : Text) : Directive :=
  let body := Text.dropUnit line
  let keyword := body.takeWhile (fun c => !Text.isBlank c)
  match body.dropWhile (fun c => !Text.isBlank c) with
  -- No blank at all is no value; blanks at the end are an empty one.
  | [] => ⟨keyword, none, line.units⟩
  | rest =>
    let value := Text.trimStart rest
    ⟨keyword, some value, (line.units : Int) - value.units⟩

/-- A keyword with a meaning of its own (`DIRECTIVE_HANDLERS`). -/
inductive Keyword where
  | importing
  | loop
  | alternative
  | repetition
  | condition
  | debug
deriving DecidableEq, Repr

namespace Keyword

/-- How a keyword is written. -/
def text : Keyword → Text
  | .importing => "import"
  | .loop => "for"
  | .alternative => "else"
  | .repetition => "while"
  | .condition => "if"
  | .debug => "debug"

/-- All keywords. -/
def all : List Keyword := [.importing, .loop, .alternative, .repetition, .condition, .debug]

/-- The keyword that a text is. -/
def ofText? (t : Text) : Option Keyword := all.find? (fun keyword => keyword.text == t)

theorem ofText?_text (keyword : Keyword) : ofText? keyword.text = some keyword := by
  cases keyword <;> decide

end Keyword

/-! ## Imports -/

/-- An entry of an import: one that is put out as it is, or the name of a stylesheet. -/
inductive ImportEntry where
  | css (text : Text)
  | sheet (name : Text)
deriving DecidableEq, Repr

namespace Import

/-- What an import is written as in the finished sheet. -/
def css (target : Text) : Text := "@import " ++ target

/-- The entry that a text is: an address or a quoted name is put out as it is (`CSS_IMPORT`). -/
def entry (t : Text) : ImportEntry :=
  if "url(".toList.isPrefixOf t || t.head? == some '"' then .css (css t) else .sheet t

/-- The entries of an import, which stand between commas (`parseImport`). Brackets and quotes do not
hide a comma. -/
def entries (value : Text) : List ImportEntry :=
  (Text.pieces ',' value).map (fun t => entry (Text.trim t))

end Import

/-! ## Alternative branches -/

/-- The test of an alternative branch, up to the first line break, from the text behind its keyword,
which goes on with `if` (`ELSE_IF`). -/
def Alternative.test? : Text → Option Text
  | 'i' :: 'f' :: t =>
    -- As many blanks as possible go in front of the test, but it may not start with a line break.
    ((Text.blankCuts 1 t).find? (fun (_, rest) => Text.startsVisible rest)).map
      (fun (_, rest) => Text.visible rest)
  | _ => none

end Stylesheet
