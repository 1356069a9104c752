import Stylesheet.Proofs.Construct.Placement
import Stylesheet.Proofs.Document.Calls
import Stylesheet.Proofs.Document.Origins
import Stylesheet.Proofs.Line.Physical

/-!
# Where the expressions of a document stand

Each expression is handed over with the number of its line and a column. A delimited expression
stands in that line at that column. One that runs on does so if no line or paragraph separator
stands behind its start: otherwise its text ends there, and its column is counted from the end of
the line all the same.

- `Document.standsIn_of_asks`: the delimited slots of a line that has been read.
- `Document.delimited_in_place`: the calls that are made for delimited expressions, and the
  expressions that a document keeps.
- `Text.RunsOnIn`: a value in its physical line, with what is left out behind it.
- `Document.runsOn_to_separator`: the calls that are made for the others, and the texts of
  attributes. `Document.value_cut_at_separator` is a value that is cut.
-/

namespace Stylesheet

open Parsing Services

variable {σ E : Type}

/-- An expression keeps the trimmed text and what was handed over with it. -/
theorem Expression.eq_of_read {t : Text} {site : Site} {offset : Int} {e : Expression}
    (h : Expression.read t site offset = .ok e) : e = ⟨Text.trim t, site, offset⟩ := by
  unfold Expression.read at h
  dsimp only at h
  split at h
  · cases h
  · cases h
    rfl

/-- A line that is read from a source comes from a physical line, whatever stands beneath it. -/
theorem Line.exists_comesFrom {source : Text} {firstLine : Int} {filename : Option Text} {line : Line}
    {lines : List Line} (hlines : ofSource source firstLine filename = .ok lines)
    (hline : { line with children := [] } ∈ lines) :
    ∃ position raw, line.ComesFrom source firstLine filename position raw := by
  obtain ⟨position, raw, hfrom⟩ := comesFrom_of_ofSource hlines hline
  exact ⟨position, raw, hfrom.physical, hfrom.text, hfrom.offset, hfrom.site⟩

namespace Document

variable {services : Services σ E} {overrides : Overrides} {source : Text} {state : σ}

/-- What a call hands over has been asked for by a line of the source. -/
theorem asked_of_call {line : Line} {ask : Ask} {directories : List Text} {before after : σ}
    {request : Request} {answer : Except Text E}
    (hputs : line.Puts services directories ask before (.expression request answer) after) :
    ∃ part slot, ask = .expression part slot ∧ request = line.request slot := by
  cases hputs with
  | expression h => exact ⟨_, _, rfl, rfl⟩

/-! ## Delimited expressions -/

/-- A delimited slot of a line stands in the source, and so does its text without blanks. -/
theorem standsIn_of_asks {filename : Option Text} {firstLine : Int} {lines : List Line} {line : Line}
    {reading : Reading} {part : Part} {slot : Slot}
    (hlines : Line.ofSource source firstLine filename = .ok lines)
    (hline : { line with children := [] } ∈ lines) (hread : Reading.ofLine true line = .ok reading)
    (hslot : .expression part slot ∈ reading.asks) (hpart : part.isOpen = false) :
    Text.StandsIn slot.text source firstLine line.site.line (line.offset + slot.column) ∧
      Text.StandsIn (Text.trim slot.text) source firstLine line.site.line
        (line.offset + slot.column) := by
  obtain ⟨position, raw, hfrom⟩ := Line.exists_comesFrom hlines hline
  have hplaced := (Reading.placed_of_ofLine hread).delimited hslot hpart
  have htrim := hplaced.occurs.trans (Text.occurs_of_isPrefix hplaced.snug)
  rw [Int.add_zero] at htrim
  exact ⟨hfrom.standsIn hplaced.occurs, hfrom.standsIn htrim⟩

/-- Whatever the services do, each expression that is handed to them and is delimited in its line
stands in the source on the line and at the column that go with it. So does, without its outer
blanks, each such expression of a document that is kept as text. -/
theorem delimited_in_place (services : Services σ E) (overrides : Overrides) (source : Text)
    (state : σ) :
    (∃ result final calls,
      (parseWith services overrides source).outcome state = (result, final) ∧
      (parseWith services.recorded overrides source).outcome (state, []) = (result, final, calls) ∧
      ∀ (index : Nat) request answer, calls[index]? = some (.expression request answer) →
        ∃ line part slot, (askings overrides source)[index]? = some (line, .expression part slot) ∧
          request = line.request slot ∧
          (part.isOpen = false →
            Text.StandsIn request.text source overrides.resolve.firstLine request.site.line
              request.offset)) ∧
    ∀ fs document, parse fs overrides source = .ok document →
      ∀ place node part e, document.Holds place node → (part, e) ∈ node.construct.partsAt place →
        part.isOpen = false →
          Text.StandsIn e.text source overrides.resolve.firstLine e.site.line e.offset := by
  constructor
  · obtain ⟨result, final, calls, hruns, hplain, hnoted⟩ :=
      runs_of_parseWith services overrides source state
    refine ⟨_, final, calls, hplain, hnoted, fun index request answer hcall => ?_⟩
    obtain ⟨line, ask, before, after, hturn, hputs⟩ := hruns.puts hcall
    obtain ⟨part, slot, rfl, rfl⟩ := asked_of_call hputs
    refine ⟨line, part, slot, hturn, rfl, fun hpart => ?_⟩
    obtain ⟨⟨lines, hlines, hline⟩, reading, hread, hslot⟩ :=
      mem_askings (List.mem_of_getElem? hturn)
    exact (standsIn_of_asks hlines hline hread hslot hpart).1
  · intro fs document hparse place node part e hholds he hpart
    obtain ⟨lines, line, reading, slot, hlines, hline, hread, hslot, _, _, hanswer⟩ :=
      asked_of_holds (parse_eq_ok.mp hparse) hholds he
    have hkept : Expression.read slot.text line.site (line.offset + slot.column) = .ok e :=
      congrArg Prod.fst hanswer
    rw [Expression.eq_of_read hkept]
    exact (standsIn_of_asks hlines hline hread hslot hpart).2

end Document

/-! ## Values at the end of a line -/

/-- A value of the physical line `raw`, which has the given number: `front` stands in front of it,
and `dropped` behind it is left out. The offset is counted from the end of the line's text. -/
structure Text.RunsOnIn (t source : Text) (firstLine number offset : Int) (raw front dropped : Text) :
    Prop where
  physical : ∃ position : Nat,
    (PhysicalLine.texts source)[position]? = some raw ∧ number = Number.plus firstLine position
  content : (PhysicalLine.ofText raw).content = front ++ t ++ dropped
  /-- The value ends at the first line break behind its start. -/
  unbroken : t.any isLineBreak = false
  breaks : ∀ c ∈ dropped.head?, isLineBreak c = true
  offset : offset = (PhysicalLine.ofText raw).indentation.length + units front + units dropped

namespace Text.RunsOnIn

variable {t source raw front dropped : Text} {firstLine number offset : Int}

/-- A value behind whose start no line is broken is complete, and stands where it is said to. -/
theorem standsIn (h : t.RunsOnIn source firstLine number offset raw front dropped)
    (hdropped : dropped = []) :
    t <:+ (PhysicalLine.ofText raw).content ∧ t.StandsIn source firstLine number offset := by
  obtain ⟨⟨position, hphysical, hnumber⟩, hcontent, -, -, hoffset⟩ := h
  subst hdropped
  rw [List.append_nil] at hcontent
  refine ⟨⟨front, hcontent.symm⟩, position, raw, hphysical, hnumber, ?_⟩
  have hfront : Occurs (PhysicalLine.ofText raw).content t (units front) :=
    ⟨front, [], by rw [hcontent, List.append_nil], rfl⟩
  have hraw := (PhysicalLine.occurs_content raw).trans hfront
  rw [hoffset, units_nil, Int.natCast_zero, Int.add_zero]
  exact ⟨hraw.nonneg, slice_of_occurs hraw⟩

/-- Without a line break in the content nothing is dropped. -/
theorem dropped_eq_nil (h : t.RunsOnIn source firstLine number offset raw front dropped)
    (hcontent : (PhysicalLine.ofText raw).content.any isLineBreak = false) : dropped = [] := by
  cases hdropped : dropped with
  | nil => rfl
  | cons c rest =>
    have hbreak : isLineBreak c = true := h.breaks c (by rw [hdropped]; rfl)
    rw [h.content, hdropped, List.any_append, List.any_cons, hbreak] at hcontent
    simp at hcontent

/-- Where something is left out, the value starts in front of the offset. -/
theorem offset_eq_iff (h : t.RunsOnIn source firstLine number offset raw front dropped) :
    offset = (PhysicalLine.ofText raw).indentation.length + units front ↔ dropped = [] := by
  rw [h.offset]
  constructor
  · intro heq
    cases hdropped : dropped with
    | nil => rfl
    | cons c rest =>
      have hwidth : 0 < width c := by
        unfold width
        split <;> omega
      rw [hdropped, units_cons] at heq
      omega
  · rintro rfl
    rw [units_nil]
    omega

end Text.RunsOnIn

/-- A value that runs on in a line runs on in its physical line. -/
theorem Line.ComesFrom.runsOnIn {source raw t : Text} {firstLine : Int} {filename : Option Text}
    {position : Nat} {line : Line} (h : line.ComesFrom source firstLine filename position raw)
    (ht : Text.RunsOn line.text t) :
    ∃ front dropped, t.RunsOnIn source firstLine line.site.line
      (line.offset + (Text.units line.text - Text.units t)) raw front dropped := by
  obtain ⟨front, dropped, hsplit, hunbroken, hbreaks⟩ := ht.split
  refine ⟨front, dropped, ⟨position, h.physical, ?_⟩, ?_, hunbroken, hbreaks, ?_⟩
  · rw [h.site]
  · rw [← h.text, hsplit]
  · rw [h.offset, hsplit, Text.units_append, Text.units_append]
    omega

namespace Document

/-- Whatever the services do, each expression that is handed to them and runs on to the end of its
line is the text from its start up to the first separator behind it, and its column is counted as if
it ran on to the end of the line. So is each text that an attribute of the document keeps. Where no
line of the source has a separator, these are whole, and stand where they are said to. -/
theorem runsOn_to_separator (services : Services σ E) (overrides : Overrides) (source : Text)
    (state : σ) :
    ∃ result final calls,
      (parseWith services overrides source).outcome state = (result, final) ∧
      (parseWith services.recorded overrides source).outcome (state, []) = (result, final, calls) ∧
      (∀ (index : Nat) request answer, calls[index]? = some (.expression request answer) →
        ∃ line part slot, (askings overrides source)[index]? = some (line, .expression part slot) ∧
          request = line.request slot ∧
          (part.isOpen = true → ∃ raw front dropped,
            request.text.RunsOnIn source overrides.resolve.firstLine request.site.line request.offset
              raw front dropped ∧
            (request.offset = (PhysicalLine.ofText raw).indentation.length + Text.units front ↔
              dropped = []) ∧
            (dropped = [] → request.text <:+ (PhysicalLine.ofText raw).content ∧
              Text.StandsIn request.text source overrides.resolve.firstLine request.site.line
                request.offset) ∧
            ((PhysicalLine.ofText raw).content.any Text.isLineBreak = false → dropped = []))) ∧
      ∀ document, result = .ok document →
        ∀ place node name text form, document.Holds place node →
          node.construct = .attribute name (.literal text) form → ∃ offset raw front dropped,
            text.RunsOnIn source overrides.resolve.firstLine node.site.line offset raw front dropped ∧
            (dropped = [] → text <:+ (PhysicalLine.ofText raw).content) ∧
            ((PhysicalLine.ofText raw).content.any Text.isLineBreak = false → dropped = []) := by
  obtain ⟨result, final, calls, hruns, hplain, hnoted⟩ :=
    runs_of_parseWith services overrides source state
  refine ⟨_, final, calls, hplain, hnoted, fun index request answer hcall => ?_, ?_⟩
  · obtain ⟨line, ask, before, after, hturn, hputs⟩ := hruns.puts hcall
    obtain ⟨part, slot, rfl, rfl⟩ := asked_of_call hputs
    refine ⟨line, part, slot, hturn, rfl, fun hpart => ?_⟩
    obtain ⟨⟨lines, hlines, hline⟩, reading, hread, hslot⟩ :=
      mem_askings (List.mem_of_getElem? hturn)
    -- the line comes from a physical line, and the value stands in what this line holds
    obtain ⟨position, raw, hfrom⟩ := Line.exists_comesFrom hlines hline
    obtain ⟨htext, hcolumn⟩ := (Reading.placed_of_ofLine hread).runsOn hslot hpart
    obtain ⟨front, dropped, hvalue⟩ := hfrom.runsOnIn htext
    rw [← hcolumn] at hvalue
    exact ⟨raw, front, dropped, hvalue, hvalue.offset_eq_iff, hvalue.standsIn,
      hvalue.dropped_eq_nil⟩
  · intro document hdocument place node name text form hholds hconstruct
    have hyields : Yields (parseWith services overrides source) state document final := by
      rw [hdocument] at hplain
      exact hplain
    obtain ⟨lines, line, hlines, hline, hsite, hread⟩ :=
      literal_of_holds hyields hholds hconstruct
    obtain ⟨position, raw, hfrom⟩ := Line.exists_comesFrom hlines hline
    obtain ⟨front, dropped, hvalue⟩ :=
      hfrom.runsOnIn ((Reading.placed_of_ofLine hread).literal _ _ _ rfl)
    rw [← hsite] at hvalue
    exact ⟨_, raw, front, dropped, hvalue, fun hnil => (hvalue.standsIn hnil).1,
      hvalue.dropped_eq_nil⟩

/-- A line separator cuts a value: the expression that is kept is not the end of its line, and its
column is that of the character behind the separator. -/
theorem value_cut_at_separator :
    ∃ document node, parse ⟨"/", .empty⟩ {} ":a= x\u2028y" = .ok document ∧ document.Holds .root node ∧
      node.construct = .attribute ['a'] (.expression ⟨['x'], ⟨1, none⟩, 6⟩) .prefixed ∧
      ¬ ['x'] <:+ ":a= x\u2028y".toList ∧ ¬ Text.StandsIn ['x'] ":a= x\u2028y" 1 1 6 := by
  have hread : (parse ⟨"/", .empty⟩ {} ":a= x\u2028y").toOption.map
      (fun document => document.children.map (·.construct)) =
        some [.attribute ['a'] (.expression ⟨['x'], ⟨1, none⟩, 6⟩) .prefixed] := by
    decide +kernel
  have htexts : PhysicalLine.texts ":a= x\u2028y" = [":a= x\u2028y".toList] := by decide +kernel
  obtain ⟨document, hdocument, hchildren⟩ := Option.map_eq_some_iff.mp hread
  obtain ⟨node, rest, hnodes, hconstruct, -⟩ := List.map_eq_cons_iff.mp hchildren
  have hparse : parse ⟨"/", .empty⟩ {} ":a= x\u2028y" = .ok document := by
    cases hresult : parse ⟨"/", .empty⟩ {} ":a= x\u2028y" with
    | error e =>
      rw [hresult] at hdocument
      cases hdocument
    | ok read =>
      rw [hresult] at hdocument
      cases hdocument
      rfl
  refine ⟨document, node, hparse, ⟨node, ?_, .self⟩, hconstruct, by decide +kernel, ?_⟩
  · rw [hnodes]
    exact List.mem_cons_self
  · -- the source is one line, and what stands at the column there is the text behind the separator
    rintro ⟨position, raw, hraw, -, -, hslice⟩
    rw [htexts] at hraw
    cases List.mem_singleton.mp (List.mem_of_getElem? hraw)
    revert hslice
    decide +kernel

end Document

end Stylesheet
