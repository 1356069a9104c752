import Stylesheet.Line.Indentation
import Stylesheet.Site

/-!
# Syntax errors

- `Cause`: what can be wrong with a document. `Cause.message` is the only place that puts a cause
  into words: the messages of `tokenize`, `buildLineTree`, the line handlers and `appendChildren`.
- `SyntaxError`: a cause and its site (`TerraceSyntaxError`). `SyntaxError.inFile` names the file of
  an error that has none yet and never replaces one (`addMetadata`).
-/

namespace Stylesheet

/-! ## Causes -/

/-- The constructs under which no line may be nested: those whose handlers call `forbidChildren`. -/
inductive Childless where
  | binding
  | mixinInclude
  | importDirective
  | debugDirective
deriving DecidableEq, Repr

/-- What a construct without nested lines is called. -/
def Childless.text : Childless → Text
  | .binding => "variable declarations"
  | .mixinInclude => "mixin directives"
  | .importDirective => "import directives"
  | .debugDirective => "debug directives"

/-- The first part of a loop head that is missing, as `parseFor` tells them apart. -/
inductive LoopPart where
  | name
  | first
  | last
deriving DecidableEq, Repr

/-- How a missing part of a loop head is asked for. -/
def LoopPart.text : LoopPart → Text
  | .name => "variable name"
  | .first => "'from <expr>'"
  | .last => "'to <expr>' or 'through <expr>'"

/-- What can be wrong with a document. -/
inductive Cause where
  /-- The first line is indented. -/
  | indentedStart
  /-- The indentation that fixes the unit has both tabs and spaces. -/
  | mixedIndentation
  /-- An indentation is no multiple of the unit. -/
  | inconsistentIndentation (found unit : Text)
  /-- A line is nested by more than one level at once. -/
  | overIndented (levels : Int)
  /-- A line is nested beneath a construct that takes none. -/
  | illegalNesting (parent : Childless)
  /-- A line starts like an attribute and is none. -/
  | invalidAttribute (line : Text)
  /-- A line starts like a variable binding and is none. -/
  | invalidBinding (line : Text)
  /-- A word stands where a variable must, and is none. -/
  | invalidVariable (name : Text)
  /-- A line starts like a mixin definition and is none. -/
  | invalidMixin (head : Text)
  /-- A line starts like a mixin include and is none. -/
  | invalidInclude (line : Text)
  /-- Nothing stands between two separators of an argument list. -/
  | emptyArgument
  /-- A parameter is not written as a variable. -/
  | unmarkedParameter (parameter : Text)
  /-- A parameter without a default follows one with a default. -/
  | requiredAfterOptional (name : Text)
  /-- A directive lacks its expression. -/
  | missingExpression (keyword : Text)
  /-- An import names no file. -/
  | missingImport
  /-- A loop head lacks a part. -/
  | invalidLoop (line : Text) (missing : LoopPart)
  /-- An alternative branch has no condition in front of it. -/
  | misplacedElse
  /-- An alternative branch goes on with something else than a condition. -/
  | invalidElse (value : Text)
  /-- A rule ends in a comma and no rule goes on with it. -/
  | danglingComma
  /-- A mixin is defined below the root. -/
  | misplacedMixin
  /-- An import stands below the root. -/
  | misplacedImport
  /-- A stylesheet cannot be read. -/
  | unreadable (path : Text)
  /-- A service failed with a message of its own. -/
  | reported (message : Text)
deriving DecidableEq, Repr

/-- A cause in words. -/
def Cause.message : Cause → Text
  | .indentedStart => "Indenting at the beginning of the document is illegal."
  | .mixedIndentation => "Indentation can't use both tabs and spaces."
  | .inconsistentIndentation found unit =>
    "Inconsistent indentation: " ++ Indentation.describe true found ++
      " used for indentation, but the rest of the document was indented using " ++
      Indentation.describe false unit ++ "."
  | .overIndented levels =>
    "The line was indented " ++ Text.ofInt levels ++ " levels deeper than the previous line."
  | .illegalNesting parent =>
    "Illegal nesting: Nothing may be nested beneath " ++ parent.text ++ "."
  | .invalidAttribute line => "Invalid attribute: \"" ++ line ++ "\"."
  | .invalidBinding line => "Invalid variable: \"" ++ line ++ "\"."
  | .invalidVariable name => "Invalid variable \"" ++ name ++ "\"."
  | .invalidMixin head => "Invalid mixin \"" ++ head ++ "\"."
  | .invalidInclude line => "Invalid mixin include \"" ++ line ++ "\"."
  | .emptyArgument => "Mixin arguments can't be empty."
  | .unmarkedParameter parameter =>
    "Mixin argument \"" ++ parameter ++ "\" must begin with an exclamation point (!)."
  | .requiredAfterOptional name =>
    "Required arguments must not follow optional arguments \"" ++ name ++ "\"."
  | .missingExpression keyword =>
    "Invalid " ++ keyword ++ " directive '@" ++ keyword ++ "': expected expression."
  | .missingImport => "Invalid import directive '@import': expected file name."
  | .invalidLoop line missing =>
    "Invalid for directive '" ++ line ++ "': expected " ++ missing.text ++ "."
  | .misplacedElse => "@else must come after @if."
  | .invalidElse value =>
    "Invalid else directive '@else " ++ value ++ "': expected 'if <expr>'."
  | .danglingComma => "Rules can't end in commas."
  | .misplacedMixin => "Mixins may only be defined at the root of a document."
  | .misplacedImport => "Import directives may only be used at the root of a document."
  | .unreadable path => "Could not read file: " ++ path
  | .reported message => message

/-! ## Errors -/

/-- What is wrong with a document, and where (`TerraceSyntaxError`). -/
structure SyntaxError where
  cause : Cause
  site : Site
deriving DecidableEq, Repr

namespace SyntaxError

/-- An error on a line of a document whose file is not known yet. -/
def atLine (cause : Cause) (line : Int) : SyntaxError := ⟨cause, ⟨line, none⟩⟩

/-- The error's cause in words. -/
def message (e : SyntaxError) : Text := e.cause.message

/-- The error's site in parentheses (`TerraceSyntaxError.location`). -/
def location (e : SyntaxError) : Text := e.site.location

/-- The error with the file named, unless it has one (`addMetadata`). -/
def inFile (filename : Option Text) (e : SyntaxError) : SyntaxError :=
  { e with site.filename := e.site.filename.or filename }

end SyntaxError

end Stylesheet
