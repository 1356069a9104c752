import Stylesheet.Proofs.Construct.Parts
import Stylesheet.Proofs.Text.Pieces
import Stylesheet.Proofs.Text.Slices

/-!
# The columns of delimited expressions

An expression that ends where something else of its line begins stands in the line at the column
that is given for it, also without the blanks around it.

- `Slot.Placed`: what is asked of a slot.
- `Arguments.placed_of_split?`, `Mixin.placed_of_head?`, `Mixin.placed_of_parameter`: the entries of
  an argument list, and the defaults of parameters.
- `Directive.ofText_written`: where the value of a directive starts.
- `Directive.placed_of_value`, `Loop.placed_of_read`: the value of a directive, and the two bounds
  of a loop.
-/

namespace Stylesheet

/-- A slot stands in its line at its column, and only blanks at its end are cut off by trimming. -/
structure Slot.Placed (line : Text) (slot : Slot) : Prop where
  occurs : Text.Occurs line slot.text slot.column
  snug : Text.trim slot.text <+: slot.text

/-! ## Argument lists -/

namespace Arguments

/-- The slots of entries stand in the joined entries. -/
theorem occurs_of_slotsBy {column : Int} {start : Nat} {entries : List Text} {slot : Slot}
    (h : slot ∈ slotsBy (· + ·) column start entries) :
    Text.Occurs (Text.join [','] entries) slot.text (slot.column - (column + start)) := by
  induction entries generalizing start with
  | nil => exact absurd h List.not_mem_nil
  | cons entry entries ih =>
    rcases List.mem_cons.mp h with rfl | h
    · have hentry : Text.Occurs (Text.join [','] (entry :: entries)) entry 0 := by
        refine Text.occurs_of_isPrefix ?_
        cases entries with
        | nil => exact ⟨[], rfl⟩
        | cons next rest =>
          rw [Text.join_cons (List.cons_ne_nil _ _), List.append_assoc]
          exact List.prefix_append _ _
      have hslot := hentry.trans (Text.occurs_trim entry)
      have hcolumn : (0 : Int) + Text.units (Text.leadingBlanks entry) =
          column + start + Text.units (Text.leadingBlanks entry) - (column + start) := by omega
      rwa [hcolumn] at hslot
    · have hne : entries ≠ [] := by
        rintro rfl
        exact absurd h List.not_mem_nil
      -- the other entries stand behind the first one and a comma
      have hrest : Text.Occurs (Text.join [','] (entry :: entries)) (Text.join [','] entries)
          (Text.units entry + 1 : Nat) := by
        refine ⟨entry ++ [','], [], ?_, ?_⟩
        · rw [Text.join_cons hne, List.append_nil]
        · rw [Text.units_append]
          rfl
      have hslot := hrest.trans (ih h)
      have hcolumn : ((Text.units entry + 1 : Nat) : Int) +
          (slot.column - (column + (start + Text.units entry + 1 : Nat))) =
            slot.column - (column + start) := by omega
      rwa [hcolumn] at hslot

theorem isPrefix_trim_of_slotsBy {plus : Int → Int → Int} {column : Int} {start : Nat}
    {entries : List Text} {slot : Slot} (h : slot ∈ slotsBy plus column start entries) :
    Text.trim slot.text <+: slot.text := by
  induction entries generalizing start with
  | nil => exact absurd h List.not_mem_nil
  | cons entry entries ih =>
    rcases List.mem_cons.mp h with rfl | h
    · exact Text.isPrefix_trim (Text.startsBlank_trim entry)
    · exact ih h

/-- A text with an inside is this inside in brackets. -/
theorem eq_of_inner? {t inner : Text} (h : inner? t = some inner) : t = ['('] ++ inner ++ [')'] := by
  unfold inner? at h
  split at h
  · split at h
    · rename_i rest hlast
      cases h
      obtain ⟨hne, hlast⟩ := List.getLast?_eq_some_iff.mp hlast
      simp [hlast]
    · cases h
  · cases h

/-- The slots of an argument list with which a line ends are in place. -/
theorem placed_of_split? {line t : Text} {slots : List Slot} (ht : t <:+ line)
    (h : split? ((Text.units line : Int) - Text.units t) t = some slots) :
    ∀ slot ∈ slots, slot.Placed line := by
  unfold split? splitBy? at h
  dsimp only at h
  split at h
  · cases h
    intro slot hslot
    exact absurd hslot List.not_mem_nil
  · obtain ⟨inner, hinner, rfl⟩ := Option.map_eq_some_iff.mp h
    intro slot hslot
    split at hslot
    · exact absurd hslot List.not_mem_nil
    · refine ⟨?_, isPrefix_trim_of_slotsBy hslot⟩
      have hbrackets : Text.Occurs (Text.trim t) inner 1 :=
        ⟨['('], [')'], eq_of_inner? hinner, rfl⟩
      have hentry := occurs_of_slotsBy hslot
      rw [join_entries] at hentry
      have hall := (Text.occurs_of_isSuffix ht).trans
        ((Text.occurs_trim t).trans (hbrackets.trans hentry))
      have hcolumn : (Text.units line : Int) - Text.units t + (Text.units (Text.leadingBlanks t) +
          (1 + (slot.column - (Text.units line - Text.units t +
            Text.units (Text.leadingBlanks t) + 1 + (0 : Nat))))) = slot.column := by omega
      rwa [hcolumn] at hall

end Arguments

/-! ## Mixins -/

namespace Mixin

/-- The argument list stands at the end of the line. -/
theorem suffix_of_cut? {t name rest : Text} (h : cut? t = some (name, rest)) : rest <:+ t := by
  unfold cut? at h
  obtain ⟨⟨gap, behind⟩, hfound, h⟩ := Option.bind_eq_some_iff.mp h
  obtain ⟨hcut, -⟩ := Text.find?_blankCuts hfound
  dsimp only at h hcut
  split at h
  · cases h
  · cases h
    have hbehind : behind <:+ t := ⟨gap, hcut⟩
    exact (List.dropWhile_suffix _).trans hbehind

/-- The arguments of a line stand at their columns. -/
theorem placed_of_head? {mark : Char} {line name : Text} {slots : List Slot}
    (h : head? mark line = some (name, slots)) : ∀ slot ∈ slots, slot.Placed line := by
  unfold head? at h
  split at h
  · cases h
  · rename_i c t
    by_cases hmark : c = mark
    · rw [if_neg (by simpa using hmark)] at h
      obtain ⟨⟨name, rest⟩, hcut, h⟩ := Option.bind_eq_some_iff.mp h
      obtain ⟨arguments, hsplit, h⟩ := Option.bind_eq_some_iff.mp h
      cases h
      exact Arguments.placed_of_split? ((suffix_of_cut? hcut).trans (List.suffix_cons _ _)) hsplit
    · rw [if_pos hmark] at h
      cases h

/-! ### Parameters -/

/-- A default ends its entry, and does not start with a blank. -/
theorem suffix_of_splitDefault {t name value : Text} (h : splitDefault t = (name, some value)) :
    value <:+ t ∧ Text.startsBlank value = false := by
  unfold splitDefault at h
  split at h
  · cases h
  · rename_i c behind hsign
    cases h
    have hbehind : c :: behind <:+ t := by
      rw [← hsign]
      exact List.dropWhile_suffix _
    exact ⟨(Text.isSuffix_trimStart _).trans ((List.suffix_cons _ _).trans hbehind),
      Text.startsBlank_trimStart _⟩

/-- The default of a parameter is in place if the parameter is. -/
theorem placed_of_parameter {line : Text} {optional : Bool} {entry slot : Slot}
    {read : Parameter Slot} (hentry : entry.Placed line) (h : parameter optional entry = .ok read)
    (hslot : read.defaultValue = some slot) : slot.Placed line := by
  unfold parameter at h
  cases hsplit : splitDefault entry.text with
  | mk name value =>
    rw [hsplit] at h
    dsimp only at h
    repeat
      split at h
      · cases h
    cases h
    obtain ⟨text, rfl, rfl⟩ := Option.map_eq_some_iff.mp hslot
    obtain ⟨hsuffix, hblank⟩ := suffix_of_splitDefault hsplit
    exact ⟨hentry.occurs.trans (Text.occurs_of_isSuffix hsuffix), Text.isPrefix_trim hblank⟩

theorem parameter_of_mem {optional : Bool} {entries : List Slot}
    {read : Except Cause (Parameter Slot)} (h : read ∈ parameters optional entries) :
    ∃ optional, ∃ entry ∈ entries, read = parameter optional entry := by
  induction entries generalizing optional with
  | nil => exact absurd h List.not_mem_nil
  | cons entry entries ih =>
    rcases List.mem_cons.mp h with rfl | h
    · exact ⟨optional, entry, List.mem_cons_self, rfl⟩
    · obtain ⟨optional', other, hother, rfl⟩ := ih h
      exact ⟨optional', other, List.mem_cons_of_mem _ hother, rfl⟩

end Mixin

/-! ## Directives -/

/-- No blank stands in a keyword. -/
theorem Keyword.visible (keyword : Keyword) : ∀ c ∈ keyword.text, Text.isBlank c = false :=
  Text.visible_of_any (by cases keyword <;> decide)

namespace Directive

variable {line value : Text}

/-- A line of a directive ends with its value. -/
theorem value_ofText (hmark : line.head? = some '@') (h : (ofText line).value = some value) :
    value <:+ line ∧ (ofText line).column = Text.units line - Text.units value ∧
      Text.startsBlank value = false := by
  cases line with
  | nil => cases hmark
  | cons c t =>
    cases hmark
    unfold ofText at h ⊢
    dsimp only at h ⊢
    rw [Text.dropUnit_cons rfl] at h ⊢
    split at h
    · cases h
    · rename_i hne
      cases h
      refine ⟨?_, rfl, Text.startsBlank_trimStart _⟩
      have hbehind : t.dropWhile (fun c => !Text.isBlank c) <:+ t := List.dropWhile_suffix _
      exact (Text.isSuffix_trimStart _).trans (hbehind.trans (List.suffix_cons _ _))

/-- A directive is cut behind its keyword, and all the blanks there are left out. -/
theorem ofText_written (keyword : Keyword) {gap : Text} (hgap : gap.all Text.isBlank = true)
    (hne : gap ≠ []) (hvalue : Text.startsBlank value = false) :
    ofText ('@' :: (keyword.text ++ gap ++ value)) =
      ⟨keyword.text, some value, Text.units ('@' :: (keyword.text ++ gap))⟩ := by
  obtain ⟨htake, hdrop⟩ := Text.cut_at_blank keyword.visible hgap hne value
  obtain ⟨c, rest, rfl⟩ := List.exists_cons_of_ne_nil hne
  have htrim := Text.trimStart_padded hgap hvalue
  rw [List.cons_append] at htake hdrop htrim
  unfold ofText
  rw [Text.dropUnit_cons (by decide), List.append_assoc, List.cons_append]
  simp only [htake, hdrop, htrim, mk.injEq, Text.units_cons, Text.units_append, true_and]
  omega

/-- The value of a directive stands at its column. -/
theorem placed_of_value (hmark : line.head? = some '@') (h : (ofText line).value = some value) :
    Slot.Placed line ⟨value, (ofText line).column⟩ := by
  obtain ⟨hsuffix, hcolumn, hblank⟩ := value_ofText hmark h
  refine ⟨?_, Text.isPrefix_trim hblank⟩
  rw [hcolumn]
  exact Text.occurs_of_isSuffix hsuffix

end Directive

/-! ## Loops -/

namespace Loop

/-- Behind a run of blanks that is as long as it can be no text starts with a blank, unless there is
nothing but blanks in it. -/
theorem isPrefix_trim_of_isClause {t : Text} (hclause : isClause t = true)
    (h : ∀ c rest, t = c :: rest → Text.isBlank c = true → isClause rest = false) :
    Text.trim t <+: t := by
  cases t with
  | nil => exact List.nil_prefix
  | cons c rest =>
    by_cases hblank : Text.isBlank c = true
    · -- with one more blank in front the rest would have done, but for being empty
      have hrest := h c rest rfl hblank
      have hnil : rest = [] := by
        simp only [isClause, List.isEmpty_cons, Bool.not_false, Bool.true_and, List.any_cons,
          Bool.not_eq_true', Bool.or_eq_false_iff] at hclause
        simpa [isClause, hclause.2] using hrest
      rw [hnil, Text.trim_of_all (by simpa using hblank)]
      exact List.nil_prefix
    · exact Text.isPrefix_trim (by simpa [Text.startsBlank] using hblank)

theorem isSuffix_word? {t rest : Text} {inclusive : Bool} (h : word? t = some (inclusive, rest)) :
    rest <:+ t := by
  unfold word? at h
  split at h
  · cases h
    exact ⟨['t', 'o'], rfl⟩
  · cases h
    exact ⟨"through".toList, rfl⟩
  · cases h

/-- The last expression of a loop head ends the head. -/
theorem isSuffix_bound? {t last : Text} {inclusive : Bool} (h : bound? t = some (inclusive, last)) :
    last <:+ t ∧ Text.trim last <+: last := by
  unfold bound? at h
  by_cases hblank : Text.startsBlank t = true
  · rw [if_neg (by simpa using hblank)] at h
    obtain ⟨⟨word, rest⟩, hword, h⟩ := Option.bind_eq_some_iff.mp h
    obtain ⟨⟨gap, behind⟩, hfound, h⟩ := Option.bind_eq_some_iff.mp h
    cases h
    obtain ⟨hcut, hclause, hnext⟩ := Text.find?_blankCuts hfound
    dsimp only at hcut hclause hnext
    refine ⟨?_, isPrefix_trim_of_isClause hclause hnext⟩
    have hbehind : last <:+ rest := ⟨gap, hcut⟩
    exact hbehind.trans ((isSuffix_word? hword).trans (Text.isSuffix_trimStart t))
  · rw [if_pos (by simpa using hblank)] at h
    cases h

theorem isSuffix_afterFrom? {t rest : Text} (h : afterFrom? t = some rest) : rest <:+ t := by
  unfold afterFrom? at h
  split at h
  · split at h
    · rename_i behind heq
      cases h
      have hword : rest <:+ Text.trimStart t := by
        rw [heq]
        exact ⟨"from".toList, rfl⟩
      exact hword.trans (Text.isSuffix_trimStart t)
    · cases h
  · cases h

/-- Where the two bounds stand in a loop head. -/
structure Clauses.Placed (head : Text) (clauses : Clauses) : Prop where
  fromFirst : clauses.fromFirst <:+ head
  first : clauses.first <+: clauses.fromFirst
  firstSnug : Text.trim clauses.first <+: clauses.first
  last : clauses.last <:+ head
  lastSnug : Text.trim clauses.last <+: clauses.last

/-- The parts of a loop head stand where they are said to. -/
theorem placed_of_clauses? {head : Text} {clauses : Clauses} (h : clauses? head = some clauses) :
    clauses.Placed head := by
  unfold clauses? at h
  dsimp only at h
  by_cases hname : (splitName head).1.isEmpty = true
  · rw [if_pos hname] at h
    cases h
  · rw [if_neg hname] at h
    obtain ⟨behind, hfrom, h⟩ := Option.bind_eq_some_iff.mp h
    obtain ⟨gap, fromFirst, hcut, hfound, hnext⟩ := Text.findSome?_blankCuts h
    obtain ⟨⟨first, rest⟩, hmem, hread⟩ := List.exists_of_findSome?_eq_some hfound
    have hparts := Text.append_of_mem_cuts hmem
    dsimp only at hread hparts
    by_cases hclause : isClause first = true
    · rw [if_neg (by simpa using hclause)] at hread
      obtain ⟨⟨inclusive, last⟩, hbound, hread⟩ := Option.bind_eq_some_iff.mp hread
      cases hread
      obtain ⟨hlast, hlastSnug⟩ := isSuffix_bound? hbound
      have hfromFirst : fromFirst <:+ head := by
        have hbehind : fromFirst <:+ behind := ⟨gap, hcut⟩
        have hsplit : (splitName head).2 <:+ head := List.dropWhile_suffix _
        exact hbehind.trans ((isSuffix_afterFrom? hfrom).trans hsplit)
      have hrest : rest <:+ fromFirst := ⟨first, hparts⟩
      have hsnug : Text.trim first <+: first := by
        refine isPrefix_trim_of_isClause hclause fun c more heq hblank => ?_
        -- else the search would have stopped one blank later
        by_contra hmore
        rw [heq] at hparts
        have hnone := hnext c (more ++ rest) hparts.symm hblank
        have hfailed := List.findSome?_eq_none_iff.mp hnone (more, rest) (Text.mem_cuts more rest)
        dsimp only at hfailed
        rw [if_neg (by simpa using hmore), hbound] at hfailed
        cases hfailed
      exact ⟨hfromFirst, ⟨rest, hparts⟩, hsnug, hlast.trans (hrest.trans hfromFirst), hlastSnug⟩
    · rw [if_pos (by simpa using hclause)] at hread
      cases hread

variable {line head : Text} {column : Int}

/-- The bounds of a loop whose head ends its line are in place. -/
theorem placed_of_read {c : Construct Slot} (hhead : Text.Occurs line head column)
    (h : read line column head = .ok c) :
    ∀ part slot, (part, slot) ∈ c.parts → slot.Placed line := by
  unfold read at h
  split at h
  · cases h
  · rename_i hclauses
    obtain ⟨hfromFirst, hfirst, hfirstSnug, hlast, hlastSnug⟩ := placed_of_clauses? hclauses
    split at h
    · cases h
      have hfirst' := (Text.occurs_of_isSuffix hfromFirst).trans (Text.occurs_of_isPrefix hfirst)
      rw [Int.add_zero] at hfirst'
      intro part slot hslot
      simp only [Construct.parts, List.mem_cons, List.not_mem_nil, or_false, Prod.mk.injEq] at hslot
      rcases hslot with ⟨-, rfl⟩ | ⟨-, rfl⟩
      · exact ⟨hhead.trans hfirst', hfirstSnug⟩
      · exact ⟨hhead.trans (Text.occurs_of_isSuffix hlast), hlastSnug⟩
    · cases h

end Loop

end Stylesheet
