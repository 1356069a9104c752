import Stylesheet.Proofs.Construct.Checking
import Stylesheet.Proofs.Document.Kinds
import Stylesheet.Proofs.Document.Positions

/-!
# Includes with arguments

An include cuts its argument list before any argument is read as an expression. With the standard
services this goes wrong for no list that is accepted.

- `Mixin.written_of_head?`: how a line with an argument list is written.
- `Reading.include_of_resolve`: the arguments of an include have been read one by one.
- `Mixin.Includes`: a line whose last bracket closes the first, with the arguments between them.
- `Mixin.checks_agree`: the check of the list and that of its entries agree, and every include that
  is accepted is written so.
-/

namespace Stylesheet

open Parsing Text

variable {σ E : Type}

namespace Mixin

/-- A line with an argument list, whose last bracket closes the first one and whose arguments are
the entries between the two. -/
def Includes (t : Text) (arguments : List Text) : Prop :=
  ∃ head inner blanks pieces, t = '+' :: (head ++ '(' :: (inner ++ ')' :: blanks)) ∧ '(' ∉ head ∧
    blanks.all isBlank = true ∧ Arguments.Encloses inner pieces ∧ arguments = pieces.map trim

/-- The cut is in front of the first bracket of the line. -/
theorem written_of_cut? {t name rest : Text} (h : cut? t = some (name, rest)) :
    ∃ head, t = head ++ rest ∧ '(' ∉ head ∧ ∀ c behind, rest = c :: behind → c = '(' := by
  unfold cut? at h
  obtain ⟨⟨gap, behind⟩, hfound, h⟩ := Option.bind_eq_some_iff.mp h
  have hmem := List.mem_of_find?_eq_some hfound
  have hcut := append_of_mem_blankCuts hmem
  have hgap := all_of_mem_blankCuts hmem
  dsimp only at h hcut hgap
  split at h
  · cases h
  · cases h
    refine ⟨gap ++ behind.takeWhile (· != '('), ?_, ?_, ?_⟩
    · rw [List.append_assoc, List.takeWhile_append_dropWhile, hcut]
    · intro hbracket
      rcases List.mem_append.mp hbracket with hbracket | hbracket
      · exact absurd (List.all_eq_true.mp hgap _ hbracket) (by decide)
      · exact absurd (List.mem_takeWhile_imp hbracket) (by decide)
    · intro c rest hrest
      have hfirst := List.head?_dropWhile_not (· != '(') behind
      rw [hrest] at hfirst
      simpa using hfirst

/-- A line with an argument list ends in a bracket, and the slots are those of the list. -/
theorem written_of_head? {mark : Char} {line name : Text} {slots : List Slot}
    (h : head? mark line = some (name, slots)) (hmark : mark ≠ '(') (hbracket : '(' ∈ line) :
    ∃ head inner blanks column rest, line = mark :: (head ++ '(' :: (inner ++ ')' :: blanks)) ∧
      '(' ∉ head ∧ blanks.all isBlank = true ∧ trim rest = '(' :: (inner ++ [')']) ∧
      Arguments.split? column rest = some slots := by
  unfold head? at h
  split at h
  · cases h
  · rename_i c t
    by_cases hc : c = mark
    · rw [if_neg (by simpa using hc)] at h
      subst hc
      obtain ⟨⟨name, rest⟩, hcut, h⟩ := Option.bind_eq_some_iff.mp h
      obtain ⟨arguments, hsplit, h⟩ := Option.bind_eq_some_iff.mp h
      cases h
      obtain ⟨head, rfl, hhead, hfirst⟩ := written_of_cut? hcut
      have hrest : '(' ∈ rest := by
        rcases List.mem_append.mp (List.mem_of_ne_of_mem hmark.symm hbracket) with hmem | hmem
        · exact absurd hmem hhead
        · exact hmem
      obtain ⟨behind, hbehind, hpadded⟩ := trim_split rest
      -- the list is not blank, since the first bracket starts it
      rcases Arguments.trim_of_splitBy? hsplit with ⟨hblank, -⟩ | ⟨inner, htrim, -⟩
      · rw [hblank, List.append_nil] at hpadded
        have hall : rest.all isBlank = true := by
          rw [hpadded, List.all_append, all_leadingBlanks, hbehind]
          rfl
        exact absurd (List.all_eq_true.mp hall _ hrest) (by decide)
      · have hleading : leadingBlanks rest = [] := by
          obtain ⟨d, rest', rfl⟩ := List.exists_cons_of_ne_nil (List.ne_nil_of_mem hrest)
          rw [hfirst d rest' rfl]
          rfl
        rw [hleading, htrim, List.nil_append] at hpadded
        refine ⟨head, inner, behind, _, rest, ?_, hhead, hbehind, htrim, hsplit⟩
        rw [hpadded]
        simp only [List.cons_append, List.append_assoc, List.nil_append]
    · rw [if_pos hc] at h
      cases h

end Mixin

/-! ## Reading includes -/

namespace Reading

variable {services : Services σ E} {directories : List Text} {line : Line} {reading : Reading}
  {outcome : Outcome E} {state next : σ} {place : Node.Place} {node : Node E}

/-- A node may stand on the lines that its reading may stand on. -/
theorem mark?_of_resolve (h : Yields (reading.resolve services directories line) state outcome next)
    (hgives : outcome.Gives place node) : node.construct.mark? = reading.mark? := by
  -- the services fill in expressions and paths, and neither of these changes the mark
  match reading, h with
  | .construct c, h =>
    obtain ⟨filled, _, hfilled, h⟩ := yields_bind.mp h
    obtain ⟨rfl, -⟩ := yields_pure.mp h
    rw [hgives.2.1]
    exact (Construct.kind_of_traverse hfilled).1
  | .definition _ parameters, h =>
    obtain ⟨filled, _, -, h⟩ := yields_bind.mp h
    obtain ⟨rfl, -⟩ := yields_pure.mp h
    rw [hgives.2.1]
    rfl
  | .imports entries, h =>
    obtain ⟨constructs, _, hconstructs, h⟩ := yields_bind.mp h
    obtain ⟨rfl, -⟩ := yields_pure.mp h
    obtain ⟨-, each, heach, hc, -⟩ := hgives
    obtain ⟨c, hmem, rfl⟩ := List.mem_map.mp heach
    obtain ⟨entry, -, _, _, hyields⟩ := mem_of_yields_mapM hconstructs hmem
    rw [hc]
    match c, isImport_of_resolveEntry hyields with
    | .fileImport _, _ | .cssImport _, _ => rfl
  | .branch none, h =>
    obtain ⟨rfl, -⟩ := yields_pure.mp h
    rw [hgives.2.1]
    rfl
  | .branch (some _), h =>
    obtain ⟨test, _, -, h⟩ := yields_bind.mp h
    obtain ⟨rfl, -⟩ := yields_pure.mp h
    rw [hgives.2.1]
    rfl

/-- The arguments of an include have been read one by one. -/
theorem include_of_resolve {name : Text} {arguments : List E}
    (h : Yields (reading.resolve services directories line) state outcome next)
    (hgives : outcome.Gives place node) (hnode : node.construct = .mixinInclude name arguments) :
    ∃ slots middle, reading = .construct (.mixinInclude name slots) ∧
      Yields (slots.mapM (services.fill line)) state arguments middle := by
  have hmark := mark?_of_resolve h hgives
  rw [hnode] at hmark
  match reading, hmark, h with
  | .construct (.mixinInclude _ slots), _, h =>
    obtain ⟨filled, middle, hfilled, h⟩ := yields_bind.mp h
    obtain ⟨rfl, -⟩ := yields_pure.mp h
    obtain ⟨_, _, hslots, hfilled⟩ := yields_bind.mp hfilled
    obtain ⟨rfl, -⟩ := yields_pure.mp hfilled
    cases hnode.symm.trans hgives.2.1
    exact ⟨slots, _, rfl, hslots⟩

end Reading

/-! ## Standard services -/

/-- What the standard services read as expressions passes the check. -/
theorem Services.passes_of_fill {fs : FileSystem} {line : Line} {slots : List Slot}
    {arguments : List Expression} {state next : σ}
    (h : Yields (slots.mapM ((Services.standard fs : Services σ Expression).fill line)) state
      arguments next) :
    arguments.map Expression.text = slots.map (trim ·.text) ∧
      ∀ slot ∈ slots, Expression.Passes slot.text := by
  induction slots generalizing state arguments with
  | nil =>
    obtain ⟨rfl, -⟩ := yields_pure.mp h
    exact ⟨rfl, fun slot hslot => absurd hslot List.not_mem_nil⟩
  | cons slot slots ih =>
    obtain ⟨e, middle, rest, hslot, hrest, rfl⟩ := yields_mapM_cons.mp h
    obtain ⟨htexts, hpasses⟩ := ih hrest
    have hread : Expression.read slot.text line.site (line.offset + slot.column) = .ok e :=
      congrArg Prod.fst (Services.yields_fill.mp hslot)
    obtain ⟨-, hbalanced, rfl⟩ := Expression.read_eq_ok_iff.mp hread
    refine ⟨congrArg (trim slot.text :: ·) htexts, List.forall_mem_cons.mpr ⟨?_, hpasses⟩⟩
    exact Expression.passes_iff.mpr (Expression.balanced_trim.mp hbalanced)

/-- An include with arguments that is accepted is written as it should be. -/
theorem Mixin.includes_of_resolve {fs : FileSystem} {directories : List Text}
    {afterConditional : Bool} {line : Line} {reading : Reading} {outcome : Outcome Expression}
    {state next : σ} {place : Node.Place} {node : Node Expression} {name : Text}
    {arguments : List Expression} (hread : Reading.ofLine afterConditional line = .ok reading)
    (hresolve : Yields (reading.resolve (.standard fs) directories line) state outcome next)
    (hgives : outcome.Gives place node) (hnode : node.construct = .mixinInclude name arguments)
    (hbracket : '(' ∈ line.text) : Mixin.Includes line.text (arguments.map Expression.text) := by
  obtain ⟨slots, middle, rfl, hslots⟩ := Reading.include_of_resolve hresolve hgives hnode
  obtain ⟨head, inner, blanks, column, rest, hwritten, hhead, hblanks, htrim, hsplit⟩ :=
    written_of_head? (Reading.head?_of_include hread) (by decide) hbracket
  obtain ⟨htexts, hpasses⟩ := Services.passes_of_fill hslots
  have hinner := Expression.passes_iff.mp ((Arguments.passes_iff_slots htrim hsplit).mpr hpasses)
  refine ⟨head, inner, blanks, Arguments.pieces inner, hwritten, hhead, hblanks,
    Arguments.encloses_of_balanced hinner, ?_⟩
  have hpieces := Arguments.map_text_of_splitBy? htrim hsplit
  rw [htexts]
  show slots.map (trim ∘ Slot.text) = _
  rw [← List.map_map, hpieces, List.map_map]
  exact List.map_congr_left fun piece _ => trim_trim piece

/-- The two ways to go through an argument list agree: the inside of its brackets passes the check
of an expression just if every argument that it is split into does. With the standard services, the
last bracket of every include that is accepted therefore closes the first one, and only commas
outside brackets and strings separate its arguments. -/
theorem Mixin.checks_agree :
    (∀ (column : Int) t inner, trim t = '(' :: (inner ++ [')']) →
      ∃ slots, Arguments.splitRounded? column t = some slots ∧
        (Expression.Passes inner ↔ ∀ slot ∈ slots, Expression.Passes slot.text)) ∧
    (∀ fs directories afterConditional line reading (state : σ) node next name arguments,
      Reading.ofLine afterConditional line = .ok reading →
      Yields (reading.resolve (.standard fs) directories line) state (.node node) next →
      node.construct = .mixinInclude name arguments → '(' ∈ line.text →
      Mixin.Includes line.text (arguments.map Expression.text)) ∧
    (∀ fs overrides source document place node name arguments,
      Document.parse fs overrides source = .ok document → document.Holds place node →
      node.construct = .mixinInclude name arguments →
      ∃ (lines : List Line) (line : Line),
        Line.ofSource source overrides.resolve.firstLine overrides.filename = .ok lines ∧
        { line with children := [] } ∈ lines ∧ node.site = line.site ∧
        line.text.head? = some '+' ∧
        ('(' ∈ line.text → Mixin.Includes line.text (arguments.map Expression.text))) := by
  refine ⟨?_, ?_, ?_⟩
  · intro column t inner ht
    obtain ⟨slots, hslots⟩ := Arguments.exists_splitBy? ht
    exact ⟨slots, hslots, Arguments.passes_iff_slots ht hslots⟩
  · intro fs directories afterConditional line reading state node next name arguments hread hresolve
      hnode hbracket
    have hgives : (Outcome.node node).Gives .root node := ⟨nofun, rfl, rfl⟩
    exact Mixin.includes_of_resolve hread hresolve hgives hnode hbracket
  · intro fs overrides source document place node name arguments hparse hholds hnode
    obtain ⟨lines, hlines, hstems⟩ := Document.stemsFrom_of_holds (Document.parse_eq_ok.mp hparse)
    -- an include is no rule, so it is just what one line gives
    rcases hstems place node hholds with ⟨-, hrule⟩ | hgiven
    · rw [hnode] at hrule
      cases hrule
    · obtain ⟨line, reading, outcome, _, _, hline, hread, hresolve, hgives, hsite⟩ := hgiven
      have hmark := Reading.mark?_of_resolve hresolve hgives
      rw [hnode] at hmark
      refine ⟨lines, line, hlines, hline, hsite, ?_, ?_⟩
      · exact (Reading.mark_of_ofLine hread hmark.symm).1
      · exact Mixin.includes_of_resolve hread hresolve hgives hnode

/-- An include whose arguments hold commas in brackets and in a string. -/
theorem Mixin.includes_nested :
    Mixin.Includes "+m(f(a,b), \"x,y\")" ["f(a,b)".toList, "\"x,y\"".toList] ∧
      ∃ slots, Arguments.splitRounded? 2 "(f(a,b), \"x,y\")" = some slots ∧
        ∀ slot ∈ slots, Expression.Passes slot.text := by
  let site : Site := ⟨1, none⟩
  have hinclude := (@Mixin.checks_agree Unit).2.1 ⟨['/'], .empty⟩ [] false
    ⟨"+m(f(a,b), \"x,y\")", 0, 1, 0, none, []⟩
    (.construct (.mixinInclude ['m'] [⟨"f(a,b)", 3⟩, ⟨"\"x,y\"", 11⟩])) ()
    ⟨.mixinInclude ['m'] [⟨"f(a,b)", site, 3⟩, ⟨"\"x,y\"", site, 11⟩], site, [], []⟩ () ['m']
    [⟨"f(a,b)", site, 3⟩, ⟨"\"x,y\"", site, 11⟩] (by rfl) (by rfl) rfl (by decide)
  obtain ⟨slots, hslots, hiff⟩ :=
    (@Mixin.checks_agree Unit).1 2 "(f(a,b), \"x,y\")" "f(a,b), \"x,y\"".toList (by decide)
  exact ⟨hinclude, slots, hslots, hiff.mp (by decide)⟩

end Stylesheet
