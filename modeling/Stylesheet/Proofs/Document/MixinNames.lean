import Stylesheet.Proofs.Construct.MixinHeads
import Stylesheet.Proofs.Document.Definitions
import Stylesheet.Proofs.Document.Levels

/-!
# The names of mixins

The name of a mixin is what stands between the sign of its line and the first bracket, without the
blanks around it. A line is rejected if nothing stands there; of blanks alone, an empty name is
left.

- `Mixin.ofLine_definition_iff`, `Mixin.ofLine_include_iff`: which definitions and includes can be
  read.
- `Construct.mixinName?`, `Mixin.cut_of_resolve`: the name of a mixin, and the line that it stems
  from.
- `Assembly.read_of_forest`: in a document that is read, every line of every level is.
- `Mixin.name_exact`: what the name of every mixin in a document is, and which lines no document
  has.
-/

namespace Stylesheet

open Parsing Text

variable {σ E : Type}

/-- The name of the mixin that a construct defines or includes. -/
def Construct.mixinName? : Construct E → Option Text
  | .mixinDefinition name _ | .mixinInclude name _ => some name
  | _ => none

theorem Text.units_eq_zero_iff {t : Text} : units t = 0 ↔ t = [] := by
  refine ⟨fun h => ?_, fun h => by rw [h]; rfl⟩
  cases t with
  | nil => rfl
  | cons c t =>
    have hwidth : width c = 1 ∨ width c = 2 := by
      unfold width
      split
      · exact .inl rfl
      · exact .inr rfl
    rw [units_cons] at h
    omega

namespace Mixin

variable {services : Services σ E} {directories : List Text} {afterConditional : Bool} {line : Line}
  {reading : Reading} {outcome : Outcome E} {state next : σ} {place : Node.Place} {node : Node E}
  {between list name : Text}

/-! ## Lines -/

/-- A line that is cut at its sign starts with it. -/
theorem Cut.head?_eq {sign : Char} {t : Text} (h : Cut sign t between list) : t.head? = some sign := by
  rw [h.eq]
  rfl

/-- A definition can be read just if something stands in front of an argument list. -/
theorem ofLine_definition_iff (h : Cut '=' line.text between list) :
    Reading.ofLine afterConditional line = .ok reading ↔
      between ≠ [] ∧ ∃ slots, Listed '=' between list slots ∧
        reading = .definition (trim between) (parameters false slots) := by
  have hmark : line.text.head? = some Mark.definition.char := h.head?_eq
  have hread : Reading.ofLine afterConditional line = Reading.ofDefinition line :=
    Reading.ofLine_of_mark hmark afterConditional
  rw [hread]
  unfold Reading.ofDefinition
  constructor
  · intro hok
    split at hok
    · rename_i entries hhead
      obtain ⟨hne, hlisted, rfl⟩ := h.head?_eq_some_iff.mp hhead
      cases hok
      exact ⟨hne, entries, hlisted, rfl⟩
    · cases hok
  · rintro ⟨hne, slots, hlisted, rfl⟩
    rw [h.head?_eq_some_iff.mpr ⟨hne, hlisted, rfl⟩]

/-- So can an include, if besides no line is nested beneath it and no argument is empty. -/
theorem ofLine_include_iff (h : Cut '+' line.text between list) (hbare : line.text ≠ ['+']) :
    Reading.ofLine afterConditional line = .ok reading ↔
      between ≠ [] ∧ line.children = [] ∧ ∃ slots, Listed '+' between list slots ∧
        (∀ slot ∈ slots, slot.text ≠ []) ∧ reading = .construct (.mixinInclude (trim between) slots) := by
  have hmark : line.text.head? = some Mark.mixinInclude.char := h.head?_eq
  have hread : Reading.ofLine afterConditional line = Reading.ofInclude line :=
    Reading.ofLine_of_mark hmark afterConditional
  -- a sign that stands alone would be a rule, and that is excluded
  have hunits : line.text.units ≠ 1 := by
    intro hunits
    rw [h.eq, units_cons, show width '+' = 1 from rfl] at hunits
    rw [h.eq, units_eq_zero_iff.mp (Nat.add_left_cancel hunits)] at hbare
    exact hbare rfl
  rw [hread]
  unfold Reading.ofInclude Line.forbidNesting
  rw [if_neg hunits, bind_eq_ok]
  constructor
  · -- three things are asked in turn: no line beneath, a head, and no empty argument
    rintro ⟨_, hnested, hok⟩
    split at hnested
    · rename_i hchildren
      split at hok
      · cases hok
      · rename_i word slots hhead
        obtain ⟨hne, hlisted, rfl⟩ := h.head?_eq_some_iff.mp hhead
        split at hok
        · cases hok
        · rename_i hempty
          cases hok
          refine ⟨hne, hchildren, slots, hlisted, fun slot hslot heq => hempty ?_, rfl⟩
          exact List.any_eq_true.mpr ⟨slot, hslot, by rw [heq]; rfl⟩
    · cases hnested
  · rintro ⟨hne, hchildren, slots, hlisted, hfilled, rfl⟩
    refine ⟨(), by rw [hchildren], ?_⟩
    have hnone : slots.any (fun argument => argument.text.isEmpty) = false :=
      List.any_eq_false.mpr fun slot hslot => by simpa using hfilled slot hslot
    rw [h.head?_eq_some_iff.mpr ⟨hne, hlisted, rfl⟩]
    dsimp only
    rw [hnone]
    rfl

/-- A line with the sign of a mixin and nothing in front of an argument list cannot be read. -/
theorem exists_error_of_unnamed {sign : Char} (h : Cut sign line.text [] list)
    (hsign : sign = '=' ∨ sign = '+') (hbare : line.text ≠ ['+']) (afterConditional : Bool) :
    ∃ e, Reading.ofLine afterConditional line = .error e := by
  cases hread : Reading.ofLine afterConditional line with
  | error e => exact ⟨e, rfl⟩
  | ok reading =>
    rcases hsign with rfl | rfl
    · exact absurd rfl ((ofLine_definition_iff h).mp hread).1
    · exact absurd rfl ((ofLine_include_iff h hbare).mp hread).1

/-! ## Nodes -/

/-- The node of a mixin stems from a line with its sign, and has the name that stands there. -/
theorem cut_of_resolve (hread : Reading.ofLine afterConditional line = .ok reading)
    (hresolve : Yields (reading.resolve services directories line) state outcome next)
    (hgives : outcome.Gives place node) (hnode : node.construct.mixinName? = some name) :
    ∃ mark between list, node.construct.mark? = some mark ∧ Cut mark.char line.text between list ∧
      between ≠ [] ∧ name = trim between := by
  have hmark := Reading.mark?_of_resolve hresolve hgives
  match hconstruct : node.construct, hnode with
  | .mixinDefinition _ taken, hnode =>
    cases hnode
    rw [hconstruct] at hmark
    obtain ⟨between, list, hcut⟩ := exists_cut (Reading.mark_of_ofLine hread hmark.symm).1
    obtain ⟨entries, -, hhead, -⟩ := definition_of_resolve hread hresolve hgives hconstruct
    obtain ⟨hne, -, hname⟩ := hcut.head?_eq_some_iff.mp hhead
    exact ⟨.definition, between, list, rfl, hcut, hne, hname⟩
  | .mixinInclude _ arguments, hnode =>
    cases hnode
    rw [hconstruct] at hmark
    obtain ⟨between, list, hcut⟩ := exists_cut (Reading.mark_of_ofLine hread hmark.symm).1
    obtain ⟨slots, -, rfl, -⟩ := Reading.include_of_resolve hresolve hgives hconstruct
    obtain ⟨hne, -, hname⟩ := hcut.head?_eq_some_iff.mp (Reading.head?_of_include hread)
    exact ⟨.mixinInclude, between, list, rfl, hcut, hne, hname⟩

end Mixin

/-! ## Levels -/

/-- Where a forest of lines is assembled, each of its lines has been read. -/
theorem Assembly.read_of_forest {services : Services σ E} {directories : List Text} {root : Bool}
    {siblings added : Siblings E} {lines : List Line} {line : Line} {state next : σ}
    (h : Yields (forest services directories root siblings lines) state added next)
    (hline : line ∈ lines) :
    ∃ afterConditional reading, Reading.ofLine afterConditional line = .ok reading := by
  induction lines generalizing siblings state with
  | nil => exact absurd hline List.not_mem_nil
  | cons first rest ih =>
    obtain ⟨between, middle, hfirst, hrest⟩ := forest_cons h
    rcases List.mem_cons.mp hline with rfl | hline
    · obtain ⟨reading, _, _, _, hread, -⟩ := line_steps hfirst
      exact ⟨_, reading, hread⟩
    · exact ih hrest hline

/-- In a document that is read, every line of every level of its source has been read. -/
theorem Document.read_of_isLevel {services : Services σ E} {overrides : Overrides} {source : Text}
    {document : Document E} {lines forest level : List Line} {after : Nat} {line : Line}
    {state next : σ} (h : Yields (parseWith services overrides source) state document next)
    (hlines : Line.ofSource source overrides.resolve.firstLine overrides.filename = .ok lines)
    (hnest : Line.nest lines 0 = .ok (forest, after)) (hlevel : Line.IsLevel forest level)
    (hline : line ∈ level) :
    ∃ afterConditional reading, Reading.ofLine afterConditional line = .ok reading := by
  obtain ⟨lines', trees, _, last, hlines', hnest', hforest, hfinish, -⟩ := steps_of_parseWith h
  cases hlines.symm.trans hlines'
  cases hnest.symm.trans hnest'
  obtain ⟨_, _, _, _, -, hyields⟩ :=
    exists_level (Assembly.yields_level.mpr ⟨last, hforest, hfinish⟩) hlevel (List.ne_nil_of_mem hline)
  obtain ⟨_, hyields, -⟩ := Assembly.yields_level.mp hyields
  exact Assembly.read_of_forest hyields hline

/-! ## Documents -/

/-- A line that starts with the sign of a definition, or with that of an include and does not end
there, is read just if something stands between the sign and an argument list; for this blanks will
do. So no document is read with such a line in one of its levels that has nothing there. The name of
every mixin in a document is what stands there on one of its lines, without the blanks around it: no
bracket is in it and no blank at its ends, and it is empty just if there is nothing but blanks. -/
theorem Mixin.name_exact :
    (∀ afterConditional (line : Line) between list reading, Cut '=' line.text between list →
      (Reading.ofLine afterConditional line = .ok reading ↔
        between ≠ [] ∧ ∃ slots, Listed '=' between list slots ∧
          reading = .definition (trim between) (parameters false slots))) ∧
    (∀ afterConditional (line : Line) between list reading, Cut '+' line.text between list →
      line.text ≠ ['+'] →
      (Reading.ofLine afterConditional line = .ok reading ↔
        between ≠ [] ∧ line.children = [] ∧ ∃ slots, Listed '+' between list slots ∧
          (∀ slot ∈ slots, slot.text ≠ []) ∧
          reading = .construct (.mixinInclude (trim between) slots))) ∧
    (∀ (services : Services σ E) overrides source (state : σ) lines forest after level line sign list,
      Line.ofSource source overrides.resolve.firstLine overrides.filename = .ok lines →
      Line.nest lines 0 = .ok (forest, after) → Line.IsLevel forest level → line ∈ level →
      Cut sign line.text [] list → sign = '=' ∨ sign = '+' → line.text ≠ ['+'] →
      ∃ e next, (Document.parseWith services overrides source).outcome state = (.error e, next)) ∧
    ∀ (services : Services σ E) overrides source document (state next : σ) place node name,
      Yields (Document.parseWith services overrides source) state document next →
      document.Holds place node → node.construct.mixinName? = some name →
      ∃ (lines : List Line) (line : Line) (mark : Mark) (between list : Text),
        Line.ofSource source overrides.resolve.firstLine overrides.filename = .ok lines ∧
        { line with children := [] } ∈ lines ∧ node.site = line.site ∧
        node.construct.mark? = some mark ∧ Cut mark.char line.text between list ∧ between ≠ [] ∧
        name = trim between ∧ '(' ∉ name ∧ startsBlank name = false ∧
        (∀ c ∈ name.getLast?, isBlank c = false) ∧ (name = [] ↔ between.all isBlank = true) := by
  refine ⟨fun _ _ _ _ _ => ofLine_definition_iff, fun _ _ _ _ _ => ofLine_include_iff, ?_, ?_⟩
  · intro services overrides source state lines forest after level line sign list hlines hnest hlevel
      hline hcut hsign hbare
    cases houtcome : (Document.parseWith services overrides source).outcome state with
    | mk result next =>
      cases result with
      | error e => exact ⟨e, next, rfl⟩
      | ok document =>
        -- if the document were read, each line of a level would have been read
        obtain ⟨afterConditional, reading, hread⟩ :=
          Document.read_of_isLevel houtcome hlines hnest hlevel hline
        obtain ⟨e, herror⟩ := exists_error_of_unnamed hcut hsign hbare afterConditional
        cases hread.symm.trans herror
  · intro services overrides source document state next place node name hparse hholds hname
    obtain ⟨lines, hlines, hstems⟩ := Document.stemsFrom_of_holds hparse
    -- a node that several lines went into is a rule, and has no name of a mixin
    rcases hstems place node hholds with ⟨-, hrule⟩ | hgiven
    · match hconstruct : node.construct, hrule, hname with
      | .mixinDefinition _ _, hrule, _ | .mixinInclude _ _, hrule, _ => cases hrule
    · obtain ⟨line, reading, outcome, _, _, hline, hread, hresolve, hgives, hsite⟩ := hgiven
      obtain ⟨mark, between, list, hmark, hcut, hne, rfl⟩ :=
        cut_of_resolve hread hresolve hgives hname
      exact ⟨lines, line, mark, between, list, hlines, hline, hsite, hmark, hcut, hne, rfl,
        fun hmem => hcut.unopened (mem_of_mem_trim hmem), startsBlank_trim between,
        fun c hc => isBlank_getLast?_trimEnd hc, trim_eq_nil_iff⟩

/-- A definition with blanks around its name and an include without one, a document that is rejected
for such an include, and a document with an include beneath a rule. -/
theorem Mixin.name_of_padded :
    Reading.ofLine false ⟨"= m (!a)", 0, 1, 0, none, []⟩ =
      .ok (.definition ['m'] (parameters false [⟨"!a", 5⟩])) ∧
    (∀ reading, Reading.ofLine false ⟨"+(1)", 0, 1, 0, none, []⟩ ≠ .ok reading) ∧
    (∃ e next, (Document.parseWith (.standard ⟨['/'], .empty⟩ : Services Unit Expression) {}
      "a\n  +(1)").outcome () = (.error e, next)) ∧
    ∃ document place node, Document.parse ⟨['/'], .empty⟩ {} "a\n  + m (1)" = .ok document ∧
      document.Holds place node ∧ node.construct.mixinName? = some ['m'] ∧
      '(' ∉ ['m'] ∧ startsBlank ['m'] = false := by
  have hdefinition : Cut '=' "= m (!a)" " m ".toList "(!a)" := .of_bracket rfl (by decide)
  have hinclude : Cut '+' "+(1)" [] "(1)" := .of_bracket rfl (by decide)
  obtain ⟨hdefinitions, hincludes, hrejected, hnames⟩ := @name_exact Unit Expression
  refine ⟨?_, ?_, ?_, ?_⟩
  · exact (hdefinitions false ⟨"= m (!a)", 0, 1, 0, none, []⟩ _ _ _ hdefinition).mpr
      ⟨by decide, _, ⟨by decide, by decide⟩, rfl⟩
  · intro reading hread
    exact ((hincludes false ⟨"+(1)", 0, 1, 0, none, []⟩ _ _ _ hinclude (by decide)).mp hread).1 rfl
  · exact hrejected _ {} "a\n  +(1)" () _ _ _ _ ⟨"+(1)", 1, 2, 2, none, []⟩ '+' _ rfl rfl
      (.beneath .root List.mem_cons_self rfl) List.mem_cons_self hinclude (.inr rfl) (by decide)
  · have hread : (Document.parse ⟨['/'], .empty⟩ {} "a\n  + m (1)").map
        (fun document => document.children.map fun top => top.children.map Node.construct) =
          .ok [[.mixinInclude ['m'] [⟨['1'], ⟨2, none⟩, 7⟩]]] := by
      decide +kernel
    obtain ⟨document, hparse, hchildren⟩ := map_eq_ok.mp hread
    obtain ⟨top, htop, hbeneath⟩ := List.map_eq_singleton_iff.mp hchildren
    obtain ⟨node, hnode, hconstruct⟩ := List.map_eq_singleton_iff.mp hbeneath
    have hholds : document.Holds .beneath node :=
      ⟨top, htop ▸ List.mem_cons_self, .beneath (hnode ▸ List.mem_cons_self) .self⟩
    have hname : node.construct.mixinName? = some ['m'] := by
      rw [hconstruct]
      rfl
    obtain ⟨_, _, _, _, _, -, -, -, -, -, -, -, hbracket, hblank, -⟩ :=
      hnames _ {} _ document () () .beneath node ['m'] (Document.parse_eq_ok.mp hparse) hholds hname
    exact ⟨document, .beneath, node, hparse, hholds, hname, hbracket, hblank⟩

/-- A definition and an include with one blank for a name are read, and have an empty name. -/
theorem Mixin.nameless_of_blank :
    ∃ document, Document.parse ⟨['/'], .empty⟩ {} "= ()\n+ ()" = .ok document ∧
      document.children.map Node.construct = [.mixinDefinition [] [], .mixinInclude [] []] ∧
      Cut '=' "= ()" [' '] "()" ∧ Cut '+' "+ ()" [' '] "()" ∧ isBlank ' ' = true := by
  have hread : (Document.parse ⟨['/'], .empty⟩ {} "= ()\n+ ()").map
      (fun document => document.children.map Node.construct) =
        .ok [.mixinDefinition [] [], .mixinInclude [] []] := by
    decide +kernel
  obtain ⟨document, hparse, hchildren⟩ := map_eq_ok.mp hread
  exact ⟨document, hparse, hchildren, .of_bracket rfl (by decide), .of_bracket rfl (by decide),
    by decide⟩

end Stylesheet
