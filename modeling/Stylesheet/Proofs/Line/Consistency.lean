import Mathlib.Data.List.Basic
import Mathlib.Data.List.TakeWhile
import Stylesheet.Proofs.Line.Layout

/-!
# Consistent indentation

Which sources can be cut into lines, said of the indentations of their lines alone.

- `Indentation.Consistent`: the first line is not indented, and all others repeat the first
  indentation, which is made of one character.
- `Indentation.Offends`: what a line does wrong, given the lines in front of it. Lines are
  consistent as long as none of them offends (`Consistent.concat`, `Consistent.not_offends`).
- `Layout.behind`: the layout with which a line is measured depends on the lines in front of it
  only; `measure_eq_error_iff` and `ok_of_measure` say what it makes of a line.
- `Line.ofSource_exact`: the sources that are accepted, their lines, and the first line that offends
  in any other.
-/

namespace Stylesheet

/-! ## Indentations -/

namespace Indentation

/-- The first of some indentations that is not empty. -/
def unit? (indentations : List Text) : Option Text := indentations.find? (fun t => !t.isEmpty)

/-- The text is one character over and over. -/
def IsUniform (t : Text) : Prop := ∃ c n, t = List.replicate n c

/-- The text is a unit written some number of times. -/
def IsMultiple (unit t : Text) : Prop := ∃ n, t = repeated unit n

/-- The first line is not indented, and where a line is, the first indentation is made of one
character and each other one is a multiple of it. -/
structure Consistent (indentations : List Text) : Prop where
  flush : ∀ first ∈ indentations.head?, first = []
  uniform : ∀ unit ∈ unit? indentations, IsUniform unit
  multiple : ∀ unit ∈ unit? indentations, ∀ indentation ∈ indentations, IsMultiple unit indentation

/-- What is wrong with an indentation behind others. -/
inductive Offends (before : List Text) (indentation : Text) : Cause → Prop where
  | start (hbefore : before = []) (h : indentation ≠ []) : Offends before indentation .indentedStart
  | mixed (hbefore : before ≠ []) (hunit : unit? before = none) (h : ¬IsUniform indentation) :
    Offends before indentation .mixedIndentation
  | inconsistent {unit : Text} (hunit : unit? before = some unit) (h : ¬IsMultiple unit indentation) :
    Offends before indentation (.inconsistentIndentation indentation unit)

variable {before front back : List Text} {indentation unit : Text} {cause other : Cause}

/-- The first indentation of two runs of lines is that of the upper run, if it has one. -/
theorem unit?_append (front back : List Text) :
    unit? (front ++ back) = (unit? front).or (unit? back) := List.find?_append

theorem unit?_singleton (indentation : Text) :
    unit? [indentation] = if indentation = [] then none else some indentation := by
  cases indentation <;> rfl

/-- The unit is fixed by the first indentation. -/
theorem unit?_append_of_some (h : unit? front = some unit) (back : List Text) :
    unit? (front ++ back) = some unit := by
  rw [unit?_append, h]
  rfl

/-- Behind lines that are all flush, a line brings its own indentation as the unit. -/
theorem unit?_concat_of_none (h : unit? before = none) (indentation : Text) :
    unit? (before ++ [indentation]) = if indentation = [] then none else some indentation := by
  rw [unit?_append, h, unit?_singleton, Option.none_or]

/-- A unit is never empty. -/
theorem ne_nil_of_unit? (h : unit? before = some unit) : unit ≠ [] := by
  have hsome := List.find?_some h
  simpa using hsome

/-- Where no indentation is taken for the unit, none of them holds anything. -/
theorem eq_nil_of_unit? (h : unit? before = none) : ∀ t ∈ before, t = [] := by
  have hnone := List.find?_eq_none.mp h
  simpa using hnone

theorem isUniform_nil : IsUniform [] := ⟨' ', 0, rfl⟩

theorem isMultiple_nil (unit : Text) : IsMultiple unit [] := ⟨0, rfl⟩

/-- Not to be mixed is to be uniform. -/
theorem isMixed_eq_false_iff {t : Text} : isMixed t = false ↔ IsUniform t := by
  cases t with
  | nil => exact iff_of_true rfl isUniform_nil
  | cons c t =>
    show t.any (· != c) = false ↔ _
    constructor
    · intro h
      refine ⟨c, t.length + 1, List.eq_replicate_iff.mpr ⟨rfl, ?_⟩⟩
      simpa using h
    · rintro ⟨d, n, h⟩
      have hall : ∀ b ∈ c :: t, b = d := (List.eq_replicate_iff.mp h).2
      rw [hall c List.mem_cons_self, List.any_eq_false]
      intro b hb
      simp [hall b (List.mem_cons_of_mem _ hb)]

/-! ## The first line that offends -/

/-- No line of consistent ones offends. -/
theorem Consistent.not_offends (h : Consistent (front ++ indentation :: back)) :
    ¬Offends front indentation cause := by
  intro hoffends
  cases hoffends with
  | start hfront hne =>
    subst hfront
    exact hne (h.flush indentation rfl)
  | mixed _ hunit hmixed =>
    -- behind lines that are not indented it is the unit itself, unless it is empty
    by_cases hne : indentation = []
    · exact hmixed (hne ▸ isUniform_nil)
    · refine hmixed (h.uniform indentation ?_)
      rw [List.append_cons]
      apply unit?_append_of_some
      rw [unit?_concat_of_none hunit, if_neg hne]
  | inconsistent hunit hmultiple =>
    exact hmultiple (h.multiple _ (unit?_append_of_some hunit _) indentation (by simp))

/-- Consistent lines stay so with a line that does not offend. -/
theorem Consistent.concat (h : Consistent before) (hoffends : ∀ cause, ¬Offends before indentation cause) :
    Consistent (before ++ [indentation]) := by
  have hflush : ∀ first ∈ (before ++ [indentation]).head?, first = [] := by
    cases before with
    | nil =>
      rintro first ⟨⟩
      by_contra hne
      exact hoffends _ (.start rfl hne)
    | cons first rest => exact h.flush
  -- either the unit is known already, or this line may be the one that brings it
  cases hunit : unit? before with
  | some unit =>
    -- the unit stays, and the line has to be a multiple of it
    have hsame := unit?_append_of_some hunit [indentation]
    refine ⟨hflush, ?_, ?_⟩
    · rw [hsame, ← hunit]
      exact h.uniform
    · rw [hsame]
      rintro _ ⟨⟩ t ht
      rcases List.mem_append.mp ht with ht | ht
      · exact h.multiple unit hunit t ht
      · rw [List.mem_singleton.mp ht]
        by_contra hmultiple
        exact hoffends _ (.inconsistent hunit hmultiple)
  | none =>
    have hown := unit?_concat_of_none hunit indentation
    -- a flush line brings no unit, and behind such lines any uniform indentation does
    by_cases hne : indentation = []
    · rw [if_pos hne] at hown
      exact ⟨hflush, by simp [hown], by simp [hown]⟩
    rw [if_neg hne] at hown
    refine ⟨hflush, ?_, ?_⟩
    · rw [hown]
      rintro _ ⟨⟩
      by_contra hmixed
      refine hoffends _ (.mixed ?_ hunit hmixed)
      rintro rfl
      exact hne (hflush indentation rfl)
    · rw [hown]
      rintro _ ⟨⟩ t ht
      rcases List.mem_append.mp ht with ht | ht
      · rw [eq_nil_of_unit? hunit t ht]
        exact isMultiple_nil _
      · rw [List.mem_singleton.mp ht]
        exact ⟨1, (repeated_one _).symm⟩

end Indentation

/-! ## Measuring -/

namespace Layout

open Indentation

/-- The layout behind lines with the given indentations. -/
def behind (before : List Text) : Layout :=
  if before = [] then .fresh
  else
    match Indentation.unit? before with
    | none => .flush
    | some unit => .measured unit

variable {before : List Text} {indentation unit : Text} {cause other : Cause} {next : Layout}
  {depth : Nat}

theorem behind_nil : behind [] = .fresh := rfl

/-- Behind flush lines the layout waits for an indentation. -/
theorem behind_of_none (h : before ≠ []) (hunit : Indentation.unit? before = none) :
    behind before = .flush := by
  simp [behind, h, hunit]

/-- Behind an indented line the layout has its unit. -/
theorem behind_of_some (hunit : Indentation.unit? before = some unit) :
    behind before = .measured unit := by
  have hne : before ≠ [] := by
    rintro rfl
    cases hunit
  simp [behind, hne, hunit]

/-- The first line must be flush. -/
theorem measure_fresh (indentation : Text) :
    measure .fresh indentation = if indentation = [] then .ok (.flush, 0) else .error .indentedStart := by
  cases indentation <;> rfl

/-- The first indentation becomes the unit, if it is uniform. -/
theorem measure_flush_eq (indentation : Text) :
    measure .flush indentation =
      if indentation = [] then .ok (.flush, 0)
      else if isMixed indentation then .error .mixedIndentation
      else .ok (.measured indentation, 1) := by
  cases indentation <;> rfl

/-- Any other indentation must repeat the unit. -/
theorem measure_of_not_isMultiple (h : ¬IsMultiple unit indentation) :
    measure (.measured unit) indentation = .error (.inconsistentIndentation indentation unit) :=
  if_neg fun heq => h ⟨_, heq.symm⟩

/-- An indentation is refused for what is wrong with it. -/
theorem measure_eq_error_iff :
    (behind before).measure indentation = .error cause ↔ Offends before indentation cause := by
  constructor
  · intro h
    -- the three layouts, each of which refuses an indentation in one way
    by_cases hbefore : before = []
    · rw [hbefore, behind_nil, measure_fresh] at h
      split at h
      · cases h
      · rename_i hne
        cases h
        exact .start hbefore hne
    cases hunit : Indentation.unit? before with
    | none =>
      rw [behind_of_none hbefore hunit, measure_flush_eq] at h
      split at h
      · cases h
      · split at h
        · rename_i hmixed
          cases h
          refine .mixed hbefore hunit fun huniform => ?_
          rw [isMixed_eq_false_iff.mpr huniform] at hmixed
          cases hmixed
        · cases h
    | some unit =>
      rw [behind_of_some hunit] at h
      by_cases hmultiple : IsMultiple unit indentation
      · obtain ⟨n, rfl⟩ := hmultiple
        rw [measure_repeated (ne_nil_of_unit? hunit)] at h
        cases h
      · rw [measure_of_not_isMultiple hmultiple] at h
        cases h
        exact .inconsistent hunit hmultiple
  · intro h
    cases h with
    | start hbefore hne => rw [hbefore, behind_nil, measure_fresh, if_neg hne]
    | mixed hbefore hunit hmixed =>
      have hne : indentation ≠ [] := fun heq => hmixed (heq ▸ isUniform_nil)
      rw [← isMixed_eq_false_iff, Bool.not_eq_false] at hmixed
      rw [behind_of_none hbefore hunit, measure_flush_eq, if_neg hne, if_pos hmixed]
    | inconsistent hunit hmultiple =>
      rw [behind_of_some hunit, measure_of_not_isMultiple hmultiple]

/-- An indentation that is accepted repeats the unit, which it fixes if it is the first. -/
theorem ok_of_measure (h : (behind before).measure indentation = .ok (next, depth)) :
    next = behind (before ++ [indentation]) ∧
      indentation = repeated ((Indentation.unit? (before ++ [indentation])).getD []) depth ∧
        (Indentation.unit? (before ++ [indentation]) = none → depth = 0) := by
  have hne : before ++ [indentation] ≠ [] := by simp
  -- with a unit the depth counts its repetitions; without one the line is flush, or it is the unit
  -- itself
  cases hunit : Indentation.unit? before with
  | some unit =>
    have hsame := unit?_append_of_some hunit [indentation]
    rw [behind_of_some hunit] at h
    by_cases hmultiple : IsMultiple unit indentation
    · obtain ⟨n, rfl⟩ := hmultiple
      rw [measure_repeated (ne_nil_of_unit? hunit)] at h
      cases h
      rw [behind_of_some hsame, hsame]
      exact ⟨rfl, rfl, by simp⟩
    · rw [measure_of_not_isMultiple hmultiple] at h
      cases h
  | none =>
    have hown := unit?_concat_of_none hunit indentation
    by_cases hempty : indentation = []
    · rw [if_pos hempty] at hown
      have hflush : next = .flush ∧ depth = 0 := by
        -- at the start of a source an indentation is an error
        by_cases hbefore : before = []
        · rw [hbefore, behind_nil, measure_fresh, if_pos hempty] at h
          cases h
          exact ⟨rfl, rfl⟩
        · rw [behind_of_none hbefore hunit, measure_flush_eq, if_pos hempty] at h
          cases h
          exact ⟨rfl, rfl⟩
      obtain ⟨rfl, rfl⟩ := hflush
      rw [behind_of_none hne hown, hown]
      exact ⟨rfl, hempty, fun _ => rfl⟩
    · rw [if_neg hempty] at hown
      by_cases hbefore : before = []
      · rw [hbefore, behind_nil, measure_fresh, if_neg hempty] at h
        cases h
      · rw [behind_of_none hbefore hunit, measure_flush_eq, if_neg hempty] at h
        split at h
        · cases h
        · cases h
          rw [behind_of_some hown, hown]
          exact ⟨rfl, (repeated_one _).symm, by simp⟩

end Layout

/-- Nothing is wrong with an indentation in two ways. -/
theorem Indentation.Offends.unique {before : List Text} {indentation : Text} {cause other : Cause}
    (h : Offends before indentation cause) (h' : Offends before indentation other) :
    cause = other := by
  rw [← Layout.measure_eq_error_iff] at h h'
  rw [h] at h'
  exact Except.error.inj h'

/-- Consistent lines stay so with a line whose depth can be measured. -/
theorem Indentation.Consistent.of_measure {before : List Text} {indentation : Text} {next : Layout}
    {depth : Nat} (h : Consistent before)
    (hmeasure : (Layout.behind before).measure indentation = .ok (next, depth)) :
    Consistent (before ++ [indentation]) := by
  refine h.concat fun cause hoffends => ?_
  rw [Layout.measure_eq_error_iff.mpr hoffends] at hmeasure
  cases hmeasure

/-! ## Rows -/

namespace PhysicalLine

/-- The lines that hold more than padding, each with its position; the first line has the given
one. -/
def filled (position : Nat) (raws : List Text) : List (Text × Nat) :=
  (raws.zipIdx position).filter fun (raw, _) => !raw.all Indentation.isPadding

/-- The physical lines of a source that are not blank, each with the number of lines in front of
it. -/
def rows (source : Text) : List (Text × Nat) := filled 0 (texts source)

/-- The spaces and tabs in front of a line. -/
def leading (row : Text × Nat) : Text := row.1.takeWhile Indentation.isIndent

/-- A line of padding alone is passed over, but it is counted. -/
theorem filled_cons_of_blank {raw : Text} (h : raw.all Indentation.isPadding = true) (position : Nat)
    (raws : List Text) : filled position (raw :: raws) = filled (position + 1) raws := by
  simp [filled, List.zipIdx_cons, h]

/-- Any other line is kept with its position. -/
theorem filled_cons {raw : Text} (h : ¬raw.all Indentation.isPadding = true) (position : Nat)
    (raws : List Text) :
    filled position (raw :: raws) = (raw, position) :: filled (position + 1) raws := by
  simp [filled, List.zipIdx_cons, h]

/-- A line is its indentation, what it holds, and padding. -/
theorem exists_padding (raw : Text) :
    ∃ padding, raw = (ofText raw).indentation ++ (ofText raw).content ++ padding ∧
      ∀ c ∈ padding, Indentation.isPadding c = true := by
  refine ⟨((raw.dropWhile Indentation.isIndent).reverse.takeWhile Indentation.isPadding).reverse,
    ?_, fun c hc => List.mem_takeWhile_imp (List.mem_reverse.mp hc)⟩
  show raw = _ ++ Text.dropEndWhile _ _ ++ _
  rw [List.append_assoc, Text.dropEndWhile, ← List.reverse_append, List.takeWhile_append_dropWhile,
    List.reverse_reverse]
  exact List.takeWhile_append_dropWhile.symm

/-- What a line holds does not end in padding. -/
theorem not_isPadding_last (raw : Text) :
    ∀ c ∈ (ofText raw).content.getLast?, Indentation.isPadding c = false := by
  intro c hc
  rw [ofText, Text.dropEndWhile, List.getLast?_reverse] at hc
  have hfirst := List.head?_dropWhile_not Indentation.isPadding
    (raw.dropWhile Indentation.isIndent).reverse
  rw [Option.mem_def.mp hc] at hfirst
  simpa using hfirst

/-- What a line holds does not start with a space or a tab. -/
theorem not_isIndent_head (raw : Text) :
    ∀ c ∈ (ofText raw).content.head?, Indentation.isIndent c = false := by
  intro c hc
  obtain ⟨padding, hraw, -⟩ := exists_padding raw
  have hrest : raw.dropWhile Indentation.isIndent = (ofText raw).content ++ padding := by
    rw [List.append_assoc] at hraw
    have hcut := List.takeWhile_append_dropWhile (p := Indentation.isIndent) (l := raw)
    exact List.append_cancel_left (hcut.trans hraw)
  have hfirst := List.head?_dropWhile_not Indentation.isIndent raw
  rw [hrest, List.head?_append, Option.mem_def.mp hc] at hfirst
  simpa using hfirst

end PhysicalLine

/-! ## Lines -/

/-- The line holds what a physical line holds behind some number of units, which is its depth, and
in front of padding. Without a unit, no line is indented. The physical line comes with its
position. -/
structure Line.Spells (unit? : Option Text) (firstLine : Int) (filename : Option Text)
    (row : Text × Nat) (line : Line) : Prop where
  written : ∃ (n : Nat) (padding : Text),
    row.1 = Indentation.repeated (unit?.getD []) n ++ line.text ++ padding ∧
      (∀ c ∈ padding, Indentation.isPadding c = true) ∧
        line.depth = n ∧ line.offset = (n * (unit?.getD []).length : Nat)
  flush : unit? = none → line.depth = 0
  text_ne_nil : line.text ≠ []
  head : ∀ c ∈ line.text.head?, Indentation.isIndent c = false
  last : ∀ c ∈ line.text.getLast?, Indentation.isPadding c = false
  site : line.site = ⟨Number.plus firstLine row.2, filename⟩
  bare : line.children = []

namespace Line

open Indentation PhysicalLine

variable {filename : Option Text} {firstLine : Int} {before raws : List Text} {position : Nat}

/-- A line whose depth has been measured spells its row. -/
theorem spells_of_measure {raw : Text} {unit? : Option Text} {next : Layout} {depth : Nat}
    (hraw : ¬raw.all isPadding = true)
    (hmeasure : (Layout.behind before).measure (ofText raw).indentation = .ok (next, depth))
    (hunit : ∀ own, Indentation.unit? (before ++ [(ofText raw).indentation]) = some own →
      unit? = some own) :
    Spells unit? firstLine filename (raw, position)
      { text := (ofText raw).content, depth := depth, index := Number.plus firstLine position,
        offset := (ofText raw).indentation.length, filename := filename } := by
  obtain ⟨-, hindentation, hflush⟩ := Layout.ok_of_measure hmeasure
  obtain ⟨padding, hpadding, hall⟩ := exists_padding raw
  -- the unit of the whole source is the one known here, or else the line is flush
  have hrepeated : (ofText raw).indentation = repeated (unit?.getD []) depth := by
    cases hown : Indentation.unit? (before ++ [(ofText raw).indentation]) with
    | some own =>
      rw [hown] at hindentation
      rw [hunit own hown]
      exact hindentation
    | none =>
      rw [hindentation, hflush hown]
      rfl
  -- a line that is not blank has a content
  have hcontent : (ofText raw).content ≠ [] := by
    intro hempty
    rw [← isBlank_ofText, isBlank, hempty] at hraw
    exact hraw rfl
  refine ⟨⟨depth, padding, ?_, hall, rfl, ?_⟩, ?_, hcontent, not_isIndent_head raw,
    not_isPadding_last raw, rfl, rfl⟩
  · rw [← hrepeated]
    exact hpadding
  · rw [hrepeated, length_repeated]
  · intro hnone
    have hown : Indentation.unit? (before ++ [(ofText raw).indentation]) = none := by
      by_contra hsome
      obtain ⟨own, hown⟩ := Option.ne_none_iff_exists'.mp hsome
      rw [hunit own hown] at hnone
      cases hnone
    rw [hflush hown]
    rfl

/-- Lines that are read behind consistent ones keep these consistent, and spell their rows. -/
theorem spells_of_ofPhysical {lines : List Line} (hbefore : Consistent before)
    (h : ofPhysical filename firstLine (Layout.behind before) position (raws.map ofText) = .ok lines) :
    Consistent (before ++ (filled position raws).map leading) ∧
      List.Forall₂
        (Spells (Indentation.unit? (before ++ (filled position raws).map leading)) firstLine filename)
        (filled position raws) lines := by
  -- by induction on the lines, with the consistent lines in front as the invariant: they grow by
  -- each line read
  induction raws generalizing before position lines with
  | nil =>
    cases h
    refine ⟨?_, .nil⟩
    simpa [filled] using hbefore
  | cons raw raws ih =>
    rw [List.map_cons, ofPhysical, isBlank_ofText] at h
    by_cases hraw : raw.all isPadding = true
    · rw [if_pos hraw] at h
      rw [filled_cons_of_blank hraw]
      -- a blank line only moves the position
      exact ih hbefore h
    rw [if_neg hraw] at h
    dsimp only at h
    split at h
    · cases h
    · rename_i next depth hmeasure
      obtain ⟨below, hbelow, rfl⟩ := map_eq_ok.mp h
      have hconsistent := hbefore.of_measure hmeasure
      obtain ⟨rfl, -, -⟩ := Layout.ok_of_measure hmeasure
      obtain ⟨hall, hspells⟩ := ih hconsistent hbelow
      rw [List.append_assoc] at hall hspells
      rw [filled_cons hraw, List.map_cons]
      refine ⟨hall, .cons (spells_of_measure hraw hmeasure fun own hown => ?_) hspells⟩
      -- a unit that is known behind this line stays the unit of all lines
      show Indentation.unit? (before ++ ([(ofText raw).indentation] ++ _)) = some own
      rw [← List.append_assoc]
      exact unit?_append_of_some hown _

/-- Where lines cannot be read behind consistent ones, there is a first one that offends. -/
theorem exists_offends_of_ofPhysical {e : SyntaxError} (hbefore : Consistent before)
    (h : ofPhysical filename firstLine (Layout.behind before) position (raws.map ofText) = .error e) :
    ∃ front row back cause, filled position raws = front ++ row :: back ∧
      Consistent (before ++ front.map leading) ∧
        Offends (before ++ front.map leading) (leading row) cause ∧
          e = .atLine cause (Number.plus firstLine row.2) := by
  -- the same induction, until a line cannot be measured
  induction raws generalizing before position with
  | nil => cases h
  | cons raw raws ih =>
    rw [List.map_cons, ofPhysical, isBlank_ofText] at h
    by_cases hraw : raw.all isPadding = true
    · rw [if_pos hraw] at h
      rw [filled_cons_of_blank hraw]
      exact ih hbefore h
    rw [if_neg hraw] at h
    dsimp only at h
    rw [filled_cons hraw]
    split at h
    · rename_i cause hmeasure
      cases h
      -- this line is the first that offends
      refine ⟨[], (raw, position), _, cause, rfl, ?_, ?_, rfl⟩
      · simpa using hbefore
      · rw [List.map_nil, List.append_nil]
        exact Layout.measure_eq_error_iff.mp hmeasure
    · rename_i next depth hmeasure
      have hconsistent := hbefore.of_measure hmeasure
      obtain ⟨rfl, -, -⟩ := Layout.ok_of_measure hmeasure
      obtain ⟨front, row, back, cause, hrows, hfront, hoffends, rfl⟩ :=
        ih hconsistent (map_eq_error.mp h)
      rw [List.append_assoc] at hfront hoffends
      exact ⟨(raw, position) :: front, row, back, cause, by rw [hrows]; rfl, hfront, hoffends, rfl⟩

/-- No row of consistent ones offends. -/
theorem not_offends_of_rows {rows front back : List (Text × Nat)} {row : Text × Nat} {cause : Cause}
    (h : Consistent (rows.map leading)) (hrows : rows = front ++ row :: back) :
    ¬Offends (front.map leading) (leading row) cause := by
  rw [hrows, List.map_append, List.map_cons] at h
  exact h.not_offends

/-- There is only one first row that offends. -/
theorem first_offends_unique {front front' back back' : List (Text × Nat)} {row row' : Text × Nat}
    {cause cause' : Cause} (h : front ++ row :: back = front' ++ row' :: back')
    (hfront : Consistent (front.map leading)) (hfront' : Consistent (front'.map leading))
    (hoffends : Offends (front.map leading) (leading row) cause)
    (hoffends' : Offends (front'.map leading) (leading row') cause') :
    row = row' ∧ cause = cause' := by
  -- if one of the two stood in front of the other, the lines in front of the other would not be
  -- consistent
  rcases List.append_eq_append_iff.mp h with ⟨between, heq, hrest⟩ | ⟨between, heq, hrest⟩
  · cases between with
    | nil =>
      cases hrest
      obtain rfl := heq.trans (List.append_nil front)
      exact ⟨rfl, hoffends.unique hoffends'⟩
    | cons other between =>
      cases hrest
      exact absurd hoffends (not_offends_of_rows hfront' heq)
  · cases between with
    | nil =>
      cases hrest
      obtain rfl := heq.trans (List.append_nil front')
      exact ⟨rfl, hoffends.unique hoffends'⟩
    | cons other between =>
      cases hrest
      exact absurd hoffends' (not_offends_of_rows hfront heq)

/-- A source can be cut into lines just if the indentations of its physical lines that are not blank
are consistent, and then its lines spell these one by one. Otherwise the first of them that offends
is reported, for what is wrong with its indentation behind those in front of it. -/
theorem ofSource_exact (source : Text) (firstLine : Int) (filename : Option Text) :
    ((∃ lines, ofSource source firstLine filename = .ok lines) ↔
      Consistent ((rows source).map leading)) ∧
    (∀ lines, ofSource source firstLine filename = .ok lines →
      List.Forall₂ (Spells (Indentation.unit? ((rows source).map leading)) firstLine filename)
        (rows source) lines) ∧
    (∀ e, ofSource source firstLine filename = .error e ↔
      ∃ front row back cause, rows source = front ++ row :: back ∧
        Consistent (front.map leading) ∧ Offends (front.map leading) (leading row) cause ∧
          e = .atLine cause (Number.plus firstLine row.2)) := by
  have hnone : Consistent [] := ⟨by simp, by simp [Indentation.unit?], by simp⟩
  have hok : ∀ lines, ofSource source firstLine filename = .ok lines →
      Consistent ((rows source).map leading) ∧ _ := fun lines h => spells_of_ofPhysical hnone h
  have herror : ∀ e, ofSource source firstLine filename = .error e → _ :=
    fun e h => exists_offends_of_ofPhysical hnone h
  refine ⟨⟨?_, ?_⟩, fun lines h => (hok lines h).2, fun e => ⟨herror e, ?_⟩⟩
  · rintro ⟨lines, h⟩
    exact (hok lines h).1
  · intro hconsistent
    cases hresult : ofSource source firstLine filename with
    | ok lines => exact ⟨lines, rfl⟩
    | error e =>
      obtain ⟨front, row, back, cause, hrows, -, hoffends, -⟩ := herror e hresult
      exact absurd hoffends (not_offends_of_rows hconsistent hrows)
  · rintro ⟨front, row, back, cause, hrows, hfront, hoffends, rfl⟩
    cases hresult : ofSource source firstLine filename with
    | ok lines => exact absurd hoffends (not_offends_of_rows (hok lines hresult).1 hrows)
    | error e =>
      obtain ⟨front', row', back', cause', hrows', hfront', hoffends', rfl⟩ := herror e hresult
      obtain ⟨rfl, rfl⟩ :=
        first_offends_unique (hrows.symm.trans hrows') hfront hfront' hoffends hoffends'
      rfl

end Line

end Stylesheet
