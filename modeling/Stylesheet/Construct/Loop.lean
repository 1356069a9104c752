import Stylesheet.Construct.Variable
import Stylesheet.SyntaxError

/-!
# Loop heads

The head of a loop is written `!name from first to last`, or with `through` in place of `to`.

- `Loop.clauses?`: the parts of a loop head (`FOR_CLAUSES`). Where the words occur more than once,
  the expression behind `from` is as long as it can be.
- `Loop.missing`: the first part that a faulty loop head lacks.
- `Loop.read`: reads a loop head (`parseFor`).
-/

namespace Stylesheet.Loop

/-- Whether a text can be an expression of a loop head: it is not empty and stands on one line. -/
def isClause (t : Text) : Bool := !t.isEmpty && !t.any Text.isLineBreak

/-- The word in front of the last expression, whether it takes the bound in, and what follows it. -/
def word? : Text → Option (Bool × Text)
  | 't' :: 'o' :: t => some (false, t)
  | 't' :: 'h' :: 'r' :: 'o' :: 'u' :: 'g' :: 'h' :: t => some (true, t)
  | _ => none

/-- The last expression, and whether the loop takes it in, of a text that starts with the blanks in
front of `to` or `through`. -/
def bound? (t : Text) : Option (Bool × Text) := do
  if !Text.startsBlank t then none
  let (inclusive, rest) ← word? (Text.trimStart t)
  -- The blanks behind the word are cut off first; some are given back only for an expression of
  -- blanks.
  let (_, last) ← (Text.blankCuts 1 rest).find? (fun (_, last) => isClause last)
  return (inclusive, last)

/-- What follows the word `from`, which stands between blanks behind the name. -/
def afterFrom? (t : Text) : Option Text :=
  if Text.startsBlank t then
    match Text.trimStart t with
    | 'f' :: 'r' :: 'o' :: 'm' :: rest => some rest
    | _ => none
  else none

/-- The parts of a loop head. -/
structure Clauses where
  name : Text
  /-- The first expression and all that follows it. -/
  fromFirst : Text
  first : Text
  last : Text
  inclusive : Bool

/-- The name at the start of a loop head, up to the first blank, and what follows it. -/
def splitName (t : Text) : Text × Text :=
  (t.takeWhile (fun c => !Text.isBlank c), t.dropWhile (fun c => !Text.isBlank c))

/-- The parts of a loop head (`FOR_CLAUSES`). Of all ways to read it the one is taken that has the
longest blanks behind `from`, and of those the one with the longest first expression. -/
def clauses? (t : Text) : Option Clauses := do
  let (name, rest) := splitName t
  if name.isEmpty then none
  let rest ← afterFrom? rest
  (Text.blankCuts 1 rest).findSome? fun (_, fromFirst) =>
    -- `cuts` lists the longest first part first, so the last `to` or `through` that fits is the
    -- word.
    (Text.cuts fromFirst).findSome? fun (first, rest) => do
      if !isClause first then none
      let (inclusive, last) ← bound? rest
      return ⟨name, fromFirst, first, last, inclusive⟩

/-- The first part that a faulty loop head lacks, as the message of `parseFor` asks for it. -/
def missing (t : Text) : LoopPart :=
  let (name, rest) := splitName t
  if name.isEmpty then .name
  else
    match afterFrom? rest with
    | none => .first
    | some rest =>
      -- Something stands behind `from`: what is asked for is the second word.
      if (Text.blankCuts 1 rest).any (fun (_, first) => Text.startsVisible first) then .last
      else .first

/-- Reads a loop head that starts at `column` of a line (`parseFor`). -/
def read (line : Text) (column : Int) (head : Text) : Except Cause (Construct Slot) :=
  match clauses? head with
  | none => .error (.invalidLoop line (missing head))
  | some ⟨name, fromFirst, first, last, inclusive⟩ =>
    if Variable.isReference name then
      .ok (.forLoop name.tail ⟨first, column + (head.units - fromFirst.units : Int)⟩
        ⟨last, column + (head.units - last.units : Int)⟩ inclusive)
    else .error (.invalidVariable name)

end Stylesheet.Loop
