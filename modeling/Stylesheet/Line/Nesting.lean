import Stylesheet.Line.Basic

/-!
# Nesting lines by depth

A line is nested beneath the nearest line above it that is less deep. `buildLineTree` consumes the
lines from the front; here the forest is built from the back, with the same result.

- `Line.level`: the lines from a starting line on, up to the first one that is less deep.
- `Line.overIndented?`: the first line that is nested by more than one level at once.
- `Line.forest`: the forest of a run of lines.
- `Line.nest`: the three together (`buildLineTree`).
-/

namespace Stylesheet.Line

/-- The run of lines from position `start` on that are at least as deep as the first of them. -/
def level (lines : List Line) (start : Nat) : List Line :=
  match lines.drop start with
  | [] => []
  | first :: rest => first :: rest.takeWhile (fun line => first.depth ≤ line.depth)

/-- The first line that is more than one level deeper than the line before it, and by how many
levels. One more than a depth is a rounded number. -/
def overIndented? : List Line → Option (Line × Int)
  | [] | [_] => none
  | upper :: lower :: rest =>
    -- Comparing neighbours is enough: the line above starts or continues a level of its own depth.
    if Number.plus upper.depth 1 < lower.depth then some (lower, lower.depth - upper.depth)
    else overIndented? (lower :: rest)

/-- Puts a line in front of a forest. The leading trees that are deeper than the line become its
children; a line that gains none keeps those it has. -/
def graft (line : Line) (trees : List Line) : List Line :=
  match trees.takeWhile (fun tree => line.depth < tree.depth) with
  | [] => line :: trees
  | children =>
    -- The trees are those of the lines below, so the deeper ones in front are the children.
    { line with children } :: trees.dropWhile (fun tree => line.depth < tree.depth)

/-- The forest of a run of lines. -/
def forest (lines : List Line) : List Line := lines.foldr graft []

/-- The forest of the run of lines that starts at position `start`, and the position behind that run
(`buildLineTree`). -/
def nest (lines : List Line) (start : Nat) : Except SyntaxError (List Line × Nat) :=
  let run := level lines start
  match overIndented? run with
  -- No other check can fail, so the whole run may be checked before any line is nested.
  | some (line, levels) => .error (line.fault (.overIndented levels))
  | none => .ok (forest run, start + run.length)

end Stylesheet.Line
