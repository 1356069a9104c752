import Stylesheet.Proofs.Construct.LoopHeads
import Stylesheet.Proofs.Document.Includes
import Stylesheet.Proofs.Document.SingleLines

/-!
# Loops

A line that is written as a loop is read as that loop, with both expressions as they are written and
at the columns at which they stand.

- `Loop.Written.node`: the node of a loop.
- `Loop.yields_resolved_written`: the line of a loop gives that node.
- `Loop.read_exact`: so does a document of this line.
-/

namespace Stylesheet.Loop

open Parsing Text

variable {σ : Type} {fs : FileSystem} {directories : List Text} {afterConditional : Bool} {line : Line}
  {loop : Written} {t gap : Text}

/-- The node of a loop whose line starts at a column. -/
def Written.node (loop : Written) (site : Site) (offset : Int) : Node Expression :=
  ⟨.forLoop loop.name ⟨loop.first, site, offset + units loop.beforeFirst⟩
    ⟨loop.last, site, offset + units loop.beforeLast⟩ loop.inclusive, site, [], []⟩

/-! ## The line of a loop -/

theorem Written.text_eq (loop : Written) :
    loop.text = '@' :: (Keyword.loop.text ++ loop.behindKeyword ++ loop.head) := by
  simp only [Written.text, Written.beforeLast, Written.beforeFirst, Written.head, List.append_assoc]
  rfl

/-- An expression with blanks behind it is read as it is without them. -/
theorem Sole.yields_fill (h : Sole t) (hgap : gap.all isBlank = true) (fs : FileSystem) (line : Line)
    (column : Int) (state : σ) :
    Yields ((Services.standard fs).fill line ⟨t ++ gap, column⟩) state
      ⟨t, line.site, line.offset + column⟩ state := by
  obtain ⟨_, _, _, hread⟩ := h.readable
  obtain ⟨hne, hbalanced, -⟩ := Expression.read_eq_ok_iff.mp hread
  have htrim : trim (t ++ gap) = t := (@trim_padded [] gap rfl hgap t).trans h.trimmed
  have hpadded : Expression.read (t ++ gap) line.site (line.offset + column) =
      .ok ⟨t, line.site, line.offset + column⟩ := by
    rw [h.trimmed] at hne hbalanced
    rw [Expression.read_eq_ok_iff, htrim]
    exact ⟨hne, hbalanced, rfl⟩
  exact Services.yields_fill.mpr (Prod.ext hpadded rfl)

/-- The line of a loop is read as its parts. The blanks in front of the word, but for the last one,
still belong to the slot of the first expression. -/
theorem ofLine_written (h : loop.Sound) (htext : line.text = loop.text) (afterConditional : Bool) :
    ∃ gap, gap.all isBlank = true ∧
      Reading.ofLine afterConditional line =
        .ok (.construct (.forLoop loop.name ⟨loop.first ++ gap, units loop.beforeFirst⟩
          ⟨loop.last, units loop.beforeLast⟩ loop.inclusive)) := by
  have hdirective : Directive.ofText line.text =
      ⟨Keyword.loop.text, some loop.head, units ('@' :: (Keyword.loop.text ++ loop.behindKeyword))⟩ := by
    rw [htext, loop.text_eq]
    exact Directive.ofText_written .loop h.behindKeyword.all h.behindKeyword.ne_nil rfl
  have hmark : line.text.head? = some Mark.directive.char := by
    rw [htext, loop.text_eq]
    rfl
  obtain ⟨gap, hgap, hread⟩ := read_written h line.text
    (units ('@' :: (Keyword.loop.text ++ loop.behindKeyword)))
  -- the columns of the parts of the head add up with the column of the head
  have hfirst : (units ('@' :: (Keyword.loop.text ++ loop.behindKeyword)) : Int) + units loop.opening =
      units loop.beforeFirst := by
    rw [← Int.natCast_add, ← units_append]
    rfl
  have hlast : (units ('@' :: (Keyword.loop.text ++ loop.behindKeyword)) : Int) +
      units (loop.opening ++ loop.first ++ loop.between) = units loop.beforeLast := by
    simp only [Written.beforeLast, units_append, Int.natCast_add, ← hfirst, Int.add_assoc]
  refine ⟨gap, hgap, ?_⟩
  rw [Reading.ofLine_of_mark hmark]
  show Reading.ofDirective afterConditional line = _
  unfold Reading.ofDirective
  rw [hdirective]
  dsimp only
  rw [Keyword.ofText?_text]
  dsimp only
  rw [Option.getD_some, hread, hfirst, hlast]

/-- The line of a loop gives the node of the loop. -/
theorem yields_resolved_written (h : loop.Sound) (htext : line.text = loop.text) (state : σ) :
    Yields (Assembly.resolved (.standard fs) directories afterConditional line) state
      (.node (loop.node line.site line.offset)) state := by
  obtain ⟨gap, hgap, hread⟩ := ofLine_written h htext afterConditional
  have hfirst := h.first.yields_fill hgap fs line (units loop.beforeFirst) state
  have hlast := @Sole.yields_fill σ _ [] h.last rfl fs line (units loop.beforeLast) state
  rw [List.append_nil] at hlast
  rw [Assembly.resolved_of_ofLine hread]
  refine yields_bind.mpr ⟨_, state, ?_, yields_pure.mpr ⟨rfl, rfl⟩⟩
  refine yields_bind.mpr ⟨_, state, hfirst, ?_⟩
  exact yields_bind.mpr ⟨_, state, hlast, yields_pure.mpr ⟨rfl, rfl⟩⟩

/-! ## The line alone -/

/-- No line break stands in the line of a loop. -/
theorem Written.Sound.unbroken (h : loop.Sound) : loop.text.any isLineBreak = false := by
  have hname : loop.name.any isLineBreak = false := by
    rw [List.any_eq_false]
    intro c hc hbreak
    have hvisible := isBlank_eq_false_of_isWord (Variable.isWord_of_isName h.name hc)
    rw [isBlank_of_isLineBreak hbreak] at hvisible
    cases hvisible
  have hword : (word loop.inclusive).any isLineBreak = false := by
    cases loop.inclusive <;> decide
  have hopening : loop.opening.any isLineBreak = false := by
    simp only [Written.opening, List.any_append, List.any_cons, hname, h.beforeFrom.unbroken,
      h.behindFrom.unbroken]
    decide
  simp only [Written.text, Written.beforeLast, Written.beforeFirst, Written.between, List.any_append,
    hopening, hword, h.behindKeyword.unbroken, h.first.unbroken, h.beforeWord.unbroken,
    h.behindWord.unbroken, h.last.unbroken]
  decide

theorem isBlank_of_isPadding {c : Char} (h : Indentation.isPadding c = true) : isBlank c = true := by
  simp only [Indentation.isPadding, Bool.or_eq_true, beq_iff_eq] at h
  rcases h with ((rfl | rfl) | rfl) | rfl <;> decide

/-- Nothing is cut off the line of a loop where it is the whole source. -/
theorem Written.Sound.legible (h : loop.Sound) : PlainLine.Legible loop.text where
  ne_nil := by
    rw [loop.text_eq]
    exact List.cons_ne_nil _ _
  unbroken :=
    ⟨fun hmem => absurd (List.any_eq_false.mp h.unbroken _ hmem) (by decide),
      fun hmem => absurd (List.any_eq_false.mp h.unbroken _ hmem) (by decide)⟩
  head := by
    rw [loop.text_eq]
    rfl
  last := by
    have hlast : loop.text.getLast? = loop.last.getLast? :=
      List.getLast?_append_of_ne_nil loop.beforeLast h.last.ne_nil
    rw [hlast, Option.any_eq_false]
    intro c hc
    rw [← h.last.trimmed] at hc
    have hvisible : isBlank c = false := isBlank_getLast?_trimEnd hc
    by_contra hpadding
    rw [isBlank_of_isPadding (by simpa using hpadding)] at hvisible
    cases hvisible

/-- At the root, behind nothing that goes on, the node of the loop is all that its line puts into a
document. -/
theorem yields_line_written (h : loop.Sound) (htext : line.text = loop.text)
    (hchildren : line.children = []) (state : σ) :
    Yields (Assembly.line (.standard fs) directories true {} line) state
      ⟨[loop.node line.site line.offset], none⟩ state := by
  have hcompletes : Assembly.Completes (.standard fs) directories line state
      (.node (loop.node line.site line.offset)) (.node (loop.node line.site line.offset)) state := by
    have hnested : Yields (Assembly.forest (.standard fs) directories false {} line.children) state {}
        state := by
      rw [hchildren, Assembly.forest]
      exact yields_pure.mpr ⟨rfl, rfl⟩
    exact .node rfl hnested rfl
  rw [Assembly.line_eq, Assembly.saying_eq_bind]
  refine yields_bind.mpr ⟨.node (loop.node line.site line.offset), state, ?_, yields_lift.mpr ⟨rfl, rfl⟩⟩
  exact yields_bind.mpr
    ⟨_, state, yields_resolved_written h htext state, Assembly.yields_complete.mpr hcompletes⟩

/-- A line that is written as a loop is read as that loop, whatever words stand in its first
expression: both expressions are kept as they are written, each at the column at which it stands in
the line, and the loop takes its bound in just if the word is the longer one. So it is where the
line is all there is. -/
theorem read_as_written {loop : Written} (h : loop.Sound) :
    (∀ fs directories afterConditional (line : Line) (state : σ), line.text = loop.text →
      Yields (Assembly.resolved (.standard fs) directories afterConditional line) state
        (.node (loop.node line.site line.offset)) state) ∧
    (∀ fs overrides, Document.parse fs overrides loop.text =
      .ok ⟨[loop.node ⟨Number.plus overrides.resolve.firstLine 0, overrides.filename⟩ 0],
        overrides.resolve⟩) ∧
    Occurs loop.text loop.first (units loop.beforeFirst) ∧
    Occurs loop.text loop.last (units loop.beforeLast) := by
  refine ⟨fun fs directories afterConditional line state htext => yields_resolved_written h htext state,
    fun fs overrides => ?_, ⟨loop.beforeFirst, loop.between ++ loop.last, ?_, rfl⟩,
    ⟨loop.beforeLast, [], (List.append_nil _).symm, rfl⟩⟩
  · have hmark : loop.text.head? ≠ some '\uFEFF' := by
      rw [loop.text_eq, List.head?_cons]
      decide
    have hlines := Line.ofSource_legible h.legible hmark overrides.resolve.firstLine
      overrides.resolve.filename
    exact Document.parse_eq_ok.mpr
      ((Document.yields_parseWith_single hlines).mpr (yields_line_written h rfl rfl ()))
  · simp only [Written.text, Written.beforeLast, List.append_assoc]

/-- A loop with both words in its first expression, alone and beneath another line. -/
theorem read_with_words :
    Document.parse ⟨['/'], .empty⟩ { line := some 3 } "@for !i\tfrom x to y through z\t through to(n)" =
      .ok ⟨[⟨.forLoop ['i'] ⟨"x to y through z", ⟨3, none⟩, 13⟩ ⟨"to(n)", ⟨3, none⟩, 39⟩ true, ⟨3, none⟩,
        [], []⟩], Overrides.resolve { line := some 3 }⟩ ∧
    Yields (Assembly.resolved (.standard ⟨['/'], .empty⟩) [] false
        ⟨"@for !i\tfrom x to y through z\t through to(n)", 1, 5, 2, none, []⟩) ()
      (.node ⟨.forLoop ['i'] ⟨"x to y through z", ⟨5, none⟩, 15⟩ ⟨"to(n)", ⟨5, none⟩, 41⟩ true, ⟨5, none⟩,
        [], []⟩) () := by
  let loop : Written := ⟨['i'], "x to y through z", "to(n)", true, [' '], ['\t'], [' '], ['\t', ' '], [' ']⟩
  have hfirst : Sole loop.first := by
    refine ⟨⟨⟨1, none⟩, 0, ⟨loop.first, ⟨1, none⟩, 0⟩, ?_⟩, ?_, ?_⟩ <;> decide
  have hlast : Sole loop.last := by
    refine ⟨⟨⟨1, none⟩, 0, ⟨loop.last, ⟨1, none⟩, 0⟩, ?_⟩, ?_, ?_⟩ <;> decide
  have hwordless : ∀ front back inclusive, ¬WordIn loop.last front back inclusive :=
    fun _ _ _ => not_wordIn_of_visible (visible_of_any (by decide))
  have hspace : Gap [' '] := ⟨by decide, by simp⟩
  have htab : Gap ['\t'] := ⟨by decide, by simp⟩
  have hboth : Gap ['\t', ' '] := ⟨by decide, by simp⟩
  have hsound : loop.Sound :=
    ⟨by decide, hfirst, hlast, hwordless, hspace, htab, hspace, hboth, hspace⟩
  have htext : loop.text = "@for !i\tfrom x to y through z\t through to(n)" := by decide
  have hnode : ∀ site (offset : Int), loop.node site offset =
      ⟨.forLoop ['i'] ⟨loop.first, site, offset + 13⟩ ⟨loop.last, site, offset + 39⟩ true, site, [], []⟩ := by
    have hbeforeFirst : units loop.beforeFirst = 13 := by decide
    have hbeforeLast : units loop.beforeLast = 39 := by decide
    intro site offset
    rw [Written.node, hbeforeFirst, hbeforeLast]
    rfl
  -- the parts of the loop are given, and the theorem finds them again in the text
  obtain ⟨hline, hdocument, -⟩ := @read_as_written Unit loop hsound
  have hparse := hdocument ⟨['/'], .empty⟩ { line := some 3 }
  have hyields := hline ⟨['/'], .empty⟩ [] false ⟨loop.text, 1, 5, 2, none, []⟩ () rfl
  rw [htext, hnode] at hparse hyields
  exact ⟨hparse, hyields⟩

end Stylesheet.Loop
