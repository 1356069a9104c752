import Mathlib.Data.List.Basic
import Mathlib.Data.List.TakeWhile
import Stylesheet.Proofs.Line.Layout
import Stylesheet.Proofs.Text.Pieces

/-!
# Renderings of an outline

An outline says which lines a document has and how deep they stand. A rendering writes it down: it
chooses an indentation, a line break and, for every line, the padding behind it, and puts blank
lines in between.

- `Outline`, `Rendering`: the two. `Rendering.source` is the text that is written.
- `Rendering.texts_source`: the texts between the line breaks of a rendering are those of its rows.
- `Layout.Expects`: what the layout says about the lines that are still to come.
- `Rendering.ofSource_source`: what is read from a rendering are the lines of its outline.
  `Rendering.HoldsOutline` puts together what is true of its lines.
-/

namespace Stylesheet

/-! ## Outlines -/

/-- What a line says, and how many levels deep it stands. -/
structure PlainLine where
  depth : Nat
  text : Text
deriving DecidableEq, Repr

/-- A text that can be told from the indentation in front of it and the padding behind it. -/
structure PlainLine.Legible (t : Text) : Prop where
  ne_nil : t ≠ []
  unbroken : '\n' ∉ t ∧ '\r' ∉ t
  head : t.head?.any Indentation.isIndent = false
  last : t.getLast?.any Indentation.isPadding = false

/-- The lines of a document, whatever their layout. -/
structure Outline where
  lines : List PlainLine
  legible : ∀ line ∈ lines, PlainLine.Legible line.text
  /-- The first text cannot be taken for one behind a byte order mark. -/
  unmarked : ∀ first ∈ lines.head?, first.text.head? ≠ some '\uFEFF'
  flush : ∀ first ∈ lines.head?, first.depth = 0
  /-- The first line that is indented fixes the unit. -/
  step : ∀ indented ∈ lines.find? (fun line => line.depth != 0), indented.depth = 1

/-! ## Renderings -/

/-- The three ways to end a line. -/
inductive LineBreak where
  | lineFeed
  | carriageReturn
  /-- A carriage return with a line feed behind it. -/
  | both
deriving DecidableEq, Repr

def LineBreak.text : LineBreak → Text
  | .lineFeed => ['\n']
  | .carriageReturn => ['\r']
  | .both => ['\r', '\n']

theorem LineBreak.text_ne_nil (lineBreak : LineBreak) : lineBreak.text ≠ [] := by
  cases lineBreak <;> exact List.cons_ne_nil _ _

/-- A row of a rendering: a line or none, and padding. -/
structure Row where
  line? : Option PlainLine
  padding : Text

/-- The text of a row. -/
def Row.text (unit : Text) (row : Row) : Text :=
  match row.line? with
  | none => row.padding
  | some line => Indentation.repeated unit line.depth ++ line.text ++ row.padding

/-- The lines of rows, each with its position. The first row has position `start`. -/
def Row.placed (start : Nat) (rows : List Row) : List (PlainLine × Nat) :=
  (rows.zipIdx start).filterMap fun (row, position) => row.line?.map (·, position)

/-- A way to write down an outline. -/
structure Rendering (outline : Outline) where
  /-- The character that all indentations are made of. -/
  indent : Char
  isIndent : Indentation.isIndent indent = true
  /-- How many of them indent by one level. -/
  width : Nat
  width_pos : 0 < width
  lineBreak : LineBreak
  /-- Whether a byte order mark stands in front. -/
  marked : Bool
  rows : List Row
  rows_ne_nil : rows ≠ []
  padded : ∀ row ∈ rows, row.padding.all Indentation.isPadding = true
  lines_eq : rows.filterMap Row.line? = outline.lines

namespace Rendering

variable {outline : Outline} (rendering : Rendering outline)

/-- The indentation of one level. -/
def unit : Text := List.replicate rendering.width rendering.indent

/-- The text that is written. -/
def source : Text :=
  (if rendering.marked then ['\uFEFF'] else []) ++
    Text.join rendering.lineBreak.text (rendering.rows.map (Row.text rendering.unit))

/-- The lines, each with the number of rows in front of it. -/
def placed : List (PlainLine × Nat) := Row.placed 0 rendering.rows

/-- A line as it is read from a source whose first line has the number `firstLine`. -/
def line (firstLine : Int) (filename : Option Text) (placed : PlainLine × Nat) : Line where
  text := placed.1.text
  depth := placed.1.depth
  index := Number.plus firstLine placed.2
  offset := placed.1.depth * rendering.width
  filename := filename

end Rendering

/-! ## Line breaks -/

namespace Text

/-- Joined texts start as the first of them does, or as what stands behind it. -/
theorem head?_join {between first : Text} {rest : List Text} {c : Char} (hne : between ≠ [])
    (h : (join between (first :: rest)).head? = some c) :
    first.head? = some c ∨ between.head? = some c := by
  by_cases hrest : rest = []
  · subst hrest
    left
    rw [← h]
    show first.head? = (first ++ []).head?
    rw [List.append_nil]
  · rw [join_cons hrest, List.append_assoc, List.head?_append, List.head?_append_of_ne_nil _ hne] at h
    rcases Option.or_eq_some_iff.mp h with hfirst | ⟨-, hbetween⟩
    · exact .inl hfirst
    · exact .inr hbetween

/-- A line break becomes a line feed. One behind a carriage return would be taken together with
it. -/
theorem unifyBreaks_lineBreak {lineBreak : LineBreak} {t : Text}
    (h : lineBreak = .carriageReturn → t.head? ≠ some '\n') :
    unifyBreaks (lineBreak.text ++ t) = '\n' :: unifyBreaks t := by
  cases lineBreak with
  | lineFeed => exact unifyBreaks_cons (by decide) t
  | carriageReturn => exact unifyBreaks_return (h rfl)
  | both =>
    show unifyBreaks ('\r' :: '\n' :: t) = _
    rw [unifyBreaks]

/-- Whatever ends the lines of a text, a line feed ends them afterwards. -/
theorem unifyBreaks_join (lineBreak : LineBreak) {texts : List Text}
    (h : ∀ text ∈ texts, '\n' ∉ text ∧ '\r' ∉ text) :
    unifyBreaks (join lineBreak.text texts) = join ['\n'] texts := by
  induction texts with
  | nil => rfl
  | cons first rest ih =>
    obtain ⟨⟨-, hfirst⟩, hrest⟩ := List.forall_mem_cons.mp h
    cases rest with
    | nil =>
      show unifyBreaks (first ++ []) = first ++ []
      rw [List.append_nil, unifyBreaks_of_not_mem hfirst]
    | cons second rest =>
      rw [join_cons (List.cons_ne_nil _ _), join_cons (List.cons_ne_nil _ _), List.append_assoc,
        List.append_assoc, unifyBreaks_append hfirst, unifyBreaks_lineBreak, ih hrest]
      · rfl
      · -- a carriage return must not meet a line feed that belongs to the next line
        rintro rfl hhead
        rcases head?_join (LineBreak.text_ne_nil _) hhead with hsecond | hbreak
        · exact (hrest second List.mem_cons_self).1 (List.mem_of_head? hsecond)
        · cases hbreak

end Text

/-! ## Rows -/

namespace Row

variable {start : Nat} {row : Row} {rows : List Row}

theorem placed_cons_none (h : row.line? = none) :
    placed start (row :: rows) = placed (start + 1) rows := by
  unfold placed
  rw [List.zipIdx_cons, List.filterMap_cons_none]
  show row.line?.map _ = none
  rw [h]
  rfl

theorem placed_cons_some {line : PlainLine} (h : row.line? = some line) :
    placed start (row :: rows) = (line, start) :: placed (start + 1) rows := by
  unfold placed
  rw [List.zipIdx_cons, List.filterMap_cons_some]
  show row.line?.map _ = some (line, start)
  rw [h]
  rfl

/-- The rows that hold a line give the lines, in their order. -/
theorem map_fst_placed (start : Nat) (rows : List Row) :
    (placed start rows).map Prod.fst = rows.filterMap Row.line? := by
  induction rows generalizing start with
  | nil => rfl
  | cons row rows ih =>
    cases hline : row.line? with
    | none => rw [placed_cons_none hline, List.filterMap_cons_none hline, ih]
    | some line => rw [placed_cons_some hline, List.filterMap_cons_some hline, List.map_cons, ih]

end Row

namespace Rendering

variable {outline : Outline} (rendering : Rendering outline)

theorem legible {row : Row} {line : PlainLine} (hrow : row ∈ rendering.rows)
    (hline : row.line? = some line) : PlainLine.Legible line.text := by
  apply outline.legible
  rw [← rendering.lines_eq]
  exact List.mem_filterMap.mpr ⟨row, hrow, hline⟩

theorem isIndent_of_mem_repeated {n : Nat} {c : Char}
    (h : c ∈ Indentation.repeated rendering.unit n) : Indentation.isIndent c = true := by
  obtain ⟨unit, hunit, hc⟩ := List.mem_flatten.mp h
  rw [List.eq_of_mem_replicate hunit] at hc
  rw [List.eq_of_mem_replicate hc]
  exact rendering.isIndent

theorem isPadding_of_mem {row : Row} (hrow : row ∈ rendering.rows) :
    ∀ c ∈ row.padding, Indentation.isPadding c = true :=
  List.all_eq_true.mp (rendering.padded row hrow)

/-- A text of characters that are no line breaks is not cut. -/
theorem unbroken_of_forall {p : Char → Bool} {t : Text} (hfeed : p '\n' = false)
    (hreturn : p '\r' = false) (h : ∀ c ∈ t, p c = true) : '\n' ∉ t ∧ '\r' ∉ t := by
  constructor
  · intro hmem
    rw [h _ hmem] at hfeed
    cases hfeed
  · intro hmem
    rw [h _ hmem] at hreturn
    cases hreturn

/-- No line break stands in a row. -/
theorem unbroken {row : Row} (hrow : row ∈ rendering.rows) :
    '\n' ∉ row.text rendering.unit ∧ '\r' ∉ row.text rendering.unit := by
  have hpadding := unbroken_of_forall (by decide) (by decide) (rendering.isPadding_of_mem hrow)
  unfold Row.text
  split
  · exact hpadding
  · rename_i line hline
    have hindent := unbroken_of_forall (by decide) (by decide) fun c =>
      rendering.isIndent_of_mem_repeated (n := line.depth)
    have htext := (rendering.legible hrow hline).unbroken
    simp only [List.mem_append, not_or]
    exact ⟨⟨⟨hindent.1, htext.1⟩, hpadding.1⟩, ⟨⟨hindent.2, htext.2⟩, hpadding.2⟩⟩

/-- The rows of a rendering do not start with a byte order mark. -/
theorem head?_rows :
    (Text.join rendering.lineBreak.text (rendering.rows.map (Row.text rendering.unit))).head? ≠
      some '\uFEFF' := by
  intro hhead
  obtain ⟨first, rest, hrows⟩ := List.exists_cons_of_ne_nil rendering.rows_ne_nil
  have hmem : first ∈ rendering.rows := by
    rw [hrows]
    exact List.mem_cons_self
  have hpadding := rendering.isPadding_of_mem hmem
  have hlines := rendering.lines_eq
  rw [hrows] at hhead hlines
  rcases Text.head?_join (LineBreak.text_ne_nil _) hhead with hfirst | hbreak
  · unfold Row.text at hfirst
    split at hfirst
    · exact absurd (hpadding _ (List.mem_of_head? hfirst)) (by decide)
    · rename_i line hline
      -- the first line of the outline is not indented, so that its text starts the row
      rw [List.filterMap_cons_some hline] at hlines
      have hmem : line ∈ outline.lines.head? := by
        rw [← hlines]
        rfl
      have htext := (outline.legible line (List.mem_of_mem_head? hmem)).ne_nil
      rw [outline.flush line hmem, List.append_assoc] at hfirst
      have hfirst : (line.text ++ first.padding).head? = some '\uFEFF' := hfirst
      rw [List.head?_append_of_ne_nil _ htext] at hfirst
      exact outline.unmarked line hmem hfirst
  · revert hbreak
    cases rendering.lineBreak <;> decide

/-- The texts between the line breaks of a rendering are those of its rows. -/
theorem texts_source :
    PhysicalLine.texts rendering.source = rendering.rows.map (Row.text rendering.unit) := by
  have hrows : ∀ text ∈ rendering.rows.map (Row.text rendering.unit), '\n' ∉ text ∧ '\r' ∉ text := by
    intro text htext
    obtain ⟨row, hrow, rfl⟩ := List.mem_map.mp htext
    exact rendering.unbroken hrow
  -- a mark in front is taken off; without one, no row starts with a character that looks like it
  have hstripped : (if rendering.source.head? = some '\uFEFF' then rendering.source.tail
      else rendering.source) =
        Text.join rendering.lineBreak.text (rendering.rows.map (Row.text rendering.unit)) := by
    unfold source
    cases rendering.marked with
    | true => rfl
    | false => exact if_neg rendering.head?_rows
  have hne : rendering.rows.map (Row.text rendering.unit) ≠ [] := by
    rw [ne_eq, List.map_eq_nil_iff]
    exact rendering.rows_ne_nil
  unfold PhysicalLine.texts
  rw [hstripped, Text.unifyBreaks_join _ hrows, Text.pieces_join hne fun text htext =>
    (hrows text htext).1]

end Rendering

/-! ## Reading rows -/

namespace PhysicalLine

/-- A legible text is found between its indentation and its padding. -/
theorem ofText_append {indentation t padding : Text}
    (hindentation : ∀ c ∈ indentation, Indentation.isIndent c = true) (ht : PlainLine.Legible t)
    (hpadding : ∀ c ∈ padding, Indentation.isPadding c = true) :
    ofText (indentation ++ t ++ padding) = ⟨indentation, t⟩ := by
  obtain ⟨c, front, rfl⟩ := List.exists_cons_of_ne_nil ht.ne_nil
  have hhead : ¬Indentation.isIndent c = true := by simpa using ht.head
  -- the last character of the text is no padding, so the padding behind it ends there
  have hcontent : Text.dropEndWhile Indentation.isPadding (c :: front ++ padding) = c :: front := by
    obtain ⟨last, others, hlast⟩ := List.exists_cons_of_ne_nil
      (List.reverse_ne_nil_iff.mpr (List.cons_ne_nil c front))
    have hstop : ¬Indentation.isPadding last = true := by
      have hend := ht.last
      rw [List.getLast?_eq_head?_reverse, hlast] at hend
      simpa using hend
    unfold Text.dropEndWhile
    rw [List.reverse_append, List.dropWhile_append_of_pos fun d hd =>
      hpadding d (List.mem_reverse.mp hd), hlast, List.dropWhile_cons_of_neg hstop, ← hlast,
      List.reverse_reverse]
  unfold ofText
  rw [List.append_assoc, List.takeWhile_append_of_pos hindentation,
    List.dropWhile_append_of_pos hindentation, List.cons_append, List.takeWhile_cons_of_neg hhead,
    List.dropWhile_cons_of_neg hhead, List.append_nil, ← List.cons_append, hcontent]

end PhysicalLine

namespace Indentation

theorem isMixed_replicate (n : Nat) (c : Char) : isMixed (List.replicate n c) = false := by
  cases n with
  | zero => rfl
  | succ n =>
    rw [List.replicate_succ]
    show (List.replicate n c).any (· != c) = false
    rw [List.any_eq_false]
    intro d hd
    rw [List.eq_of_mem_replicate hd]
    simp

end Indentation

/-! ## The layout of what is still to come -/

/-- What a layout says about the lines that are still to come, if these are indented by a unit. -/
def Layout.Expects (unit : Text) (lines : List PlainLine) : Layout → Prop
  | .fresh =>
    (∀ first ∈ lines.head?, first.depth = 0) ∧
      ∀ indented ∈ lines.find? (fun line => line.depth != 0), indented.depth = 1
  | .flush => ∀ indented ∈ lines.find? (fun line => line.depth != 0), indented.depth = 1
  | .measured own => own = unit

/-- The next line measures what it is deep, and the lines behind it are still as expected. -/
theorem Layout.Expects.measure {unit : Text} {line : PlainLine} {lines : List PlainLine}
    {layout : Layout} (hunit : unit ≠ []) (hmixed : Indentation.isMixed unit = false)
    (h : layout.Expects unit (line :: lines)) :
    ∃ next, layout.measure (Indentation.repeated unit line.depth) = .ok (next, line.depth) ∧
      next.Expects unit lines := by
  -- the unit is known, or no line has been read, or all lines so far were flush
  cases layout with
  | measured own =>
    cases h
    exact ⟨.measured unit, measure_repeated hunit line.depth, rfl⟩
  | fresh =>
    have hflush : line.depth = 0 := h.1 line rfl
    have hstep := h.2
    rw [List.find?_cons_of_neg (by simp [hflush])] at hstep
    rw [hflush]
    exact ⟨.flush, rfl, hstep⟩
  | flush =>
    by_cases hflush : line.depth = 0
    · unfold Expects at h
      rw [List.find?_cons_of_neg (by simp [hflush])] at h
      rw [hflush]
      exact ⟨.flush, rfl, h⟩
    · have hone : line.depth = 1 := by
        apply h
        rw [List.find?_cons_of_pos (by simpa using hflush)]
        rfl
      refine ⟨.measured unit, ?_, rfl⟩
      rw [hone, Indentation.repeated_one]
      obtain ⟨c, rest, rfl⟩ := List.exists_cons_of_ne_nil hunit
      exact if_neg (by simpa using hmixed)

namespace Rendering

variable {outline : Outline} (rendering : Rendering outline)

theorem length_unit : rendering.unit.length = rendering.width := List.length_replicate

theorem unit_ne_nil : rendering.unit ≠ [] := by
  unfold unit
  rw [ne_eq, List.replicate_eq_nil_iff]
  exact Nat.pos_iff_ne_zero.mp rendering.width_pos

/-- What is read from some rows of a rendering are their lines. -/
theorem ofPhysical_rows {firstLine : Int} {filename : Option Text} {layout : Layout} {position : Nat}
    {rows : List Row} (hrows : ∀ row ∈ rows, row ∈ rendering.rows)
    (hlayout : layout.Expects rendering.unit (rows.filterMap Row.line?)) :
    Line.ofPhysical filename firstLine layout position
        (rows.map fun row => PhysicalLine.ofText (row.text rendering.unit)) =
      .ok ((Row.placed position rows).map (rendering.line firstLine filename)) := by
  induction rows generalizing layout position with
  | nil => rfl
  | cons row rest ih =>
    obtain ⟨hrow, hrest⟩ := List.forall_mem_cons.mp hrows
    rw [List.map_cons, Line.ofPhysical]
    cases hline : row.line? with
    -- a row without a line is blank: it counts, but neither moves nor fixes the unit
    | none =>
      rw [List.filterMap_cons_none hline] at hlayout
      have htext : row.text rendering.unit = row.padding := by
        unfold Row.text
        rw [hline]
      rw [htext, PhysicalLine.isBlank_ofText,
        if_pos (List.all_eq_true.mpr (rendering.isPadding_of_mem hrow)), Row.placed_cons_none hline]
      exact ih hrest hlayout
    | some line =>
      rw [List.filterMap_cons_some hline] at hlayout
      have htext : row.text rendering.unit =
          Indentation.repeated rendering.unit line.depth ++ line.text ++ row.padding := by
        unfold Row.text
        rw [hline]
      have hlegible := rendering.legible hrow hline
      rw [htext, PhysicalLine.ofText_append (fun c => rendering.isIndent_of_mem_repeated) hlegible
        (rendering.isPadding_of_mem hrow)]
      have hblank : ¬PhysicalLine.isBlank ⟨Indentation.repeated rendering.unit line.depth, line.text⟩ =
          true := by
        simpa [PhysicalLine.isBlank] using hlegible.ne_nil
      -- the depth is measured in the layout so far, and the rest of the rows expects the next
      -- layout
      obtain ⟨next, hmeasure, hnext⟩ :=
        hlayout.measure rendering.unit_ne_nil (Indentation.isMixed_replicate _ _)
      rw [if_neg hblank, Row.placed_cons_some hline, List.map_cons]
      dsimp only
      rw [hmeasure]
      dsimp only
      rw [ih hrest hnext, Indentation.length_repeated, rendering.length_unit, Int.natCast_mul]
      rfl

/-- What is read from a rendering are the lines of its outline. -/
theorem ofSource_source (firstLine : Int) (filename : Option Text) :
    Line.ofSource rendering.source firstLine filename =
      .ok (rendering.placed.map (rendering.line firstLine filename)) := by
  have hfresh : Layout.fresh.Expects rendering.unit (rendering.rows.filterMap Row.line?) := by
    rw [rendering.lines_eq]
    exact ⟨outline.flush, outline.step⟩
  unfold Line.ofSource PhysicalLine.ofSource
  rw [rendering.texts_source, List.map_map]
  exact rendering.ofPhysical_rows (fun row hrow => hrow) hfresh

theorem map_fst_placed : rendering.placed.map Prod.fst = outline.lines := by
  rw [← rendering.lines_eq]
  exact Row.map_fst_placed 0 rendering.rows

/-- A rendering holds its outline: its rows are the physical lines of its source, and the lines that
are read from it are those of the outline, each with the number of its row. -/
structure HoldsOutline : Prop where
  texts : PhysicalLine.texts rendering.source = rendering.rows.map (Row.text rendering.unit)
  outline : rendering.placed.map Prod.fst = outline.lines
  lines : ∀ firstLine filename, Line.ofSource rendering.source firstLine filename =
    .ok (rendering.placed.map (rendering.line firstLine filename))
  /-- Numbers are exact as long as they are small. -/
  index : ∀ firstLine filename, ∀ placed ∈ rendering.placed,
    (firstLine + (placed.2 : Int)).natAbs ≤ Number.exactBound →
      (rendering.line firstLine filename placed).index = firstLine + placed.2

/-- A rendering is read as the outline that it writes down, whatever its unit, breaks and blank rows
are. -/
theorem holdsOutline : rendering.HoldsOutline where
  texts := rendering.texts_source
  outline := rendering.map_fst_placed
  lines := rendering.ofSource_source
  index _ _ _ _ h := Number.plus_of_natAbs_le h

end Rendering

end Stylesheet
