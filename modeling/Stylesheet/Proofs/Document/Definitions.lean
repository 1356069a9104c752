import Stylesheet.Proofs.Construct.Parameters
import Stylesheet.Proofs.Document.Includes
import Stylesheet.Proofs.Document.Siblings

/-!
# Definitions of mixins

A definition is accepted just if each entry of its argument list is a parameter, those without a
default first. Otherwise the error is that of the first entry at which something is wrong.

- `Mixin.Takes`, `Mixin.Offends`: an entry is read as a parameter, or it is not, and why.
- `Mixin.WellFormed`: a list of entries is one of parameters.
- `Mixin.yields_parameters`, `Mixin.fails_parameters`: the entries of a list are read one by one.
- `Mixin.definition_exact`: which definitions are accepted, what they are read as, and how they
  fail.
-/

namespace Stylesheet

open Parsing

variable {σ E α β : Type}

/-! ## Steps that fail -/

/-- A composed computation fails in its first part, or in the second one behind it. -/
theorem Parsing.outcome_bind_eq_error {p : Parsing σ α} {f : α → Parsing σ β} {state next : σ}
    {e : SyntaxError} :
    (p >>= f).outcome state = (.error e, next) ↔
      p.outcome state = (.error e, next) ∨
        ∃ a middle, Yields p state a middle ∧ (f a).outcome middle = (.error e, next) := by
  unfold Yields
  rw [outcome_bind]
  cases p.outcome state with
  | mk result middle =>
    cases result with
    | error e' => simp
    | ok a => simp

/-- A list that is worked through one by one fails at its first member, or behind it. -/
theorem Parsing.outcome_mapM_cons_eq_error {g : α → Parsing σ β} {a : α} {as : List α}
    {state next : σ} {e : SyntaxError} :
    ((a :: as).mapM g).outcome state = (.error e, next) ↔
      (g a).outcome state = (.error e, next) ∨
        ∃ b middle, Yields (g a) state b middle ∧ (as.mapM g).outcome middle = (.error e, next) := by
  rw [List.mapM_cons, outcome_bind_eq_error]
  refine or_congr_right (exists_congr fun b => exists_congr fun middle => and_congr_right fun _ => ?_)
  rw [outcome_bind_eq_error]
  refine ⟨fun h => h.resolve_right ?_, .inl⟩
  rintro ⟨rest, after, -, h⟩
  cases h

namespace Mixin

variable {services : Services σ E} {fs : FileSystem} {line : Line} {entry : Slot}
  {entries : List Slot} {optional : Bool} {state next : σ} {e : SyntaxError} {cause : Cause}

/-! ## Entries -/

/-- An entry is read as a parameter: it is written as one, and its default is read as an
expression. -/
inductive Takes (line : Line) (entry : Slot) : Parameter Expression → Prop where
  | required {name : Text} (hdeclares : Declares entry ⟨name, none⟩) : Takes line entry ⟨name, none⟩
  | optional {name : Text} {slot : Slot} {value : Expression}
    (hdeclares : Declares entry ⟨name, some slot⟩)
    (hread : Expression.read slot.text line.site (line.offset + slot.column) = .ok value) :
    Takes line entry ⟨name, some value⟩

/-- What is wrong with an entry: its text misses something, or its default is no expression. -/
inductive Offends (line : Line) (optional : Prop) (entry : Slot) : Cause → Prop where
  | text {cause : Cause} (hmisses : Misses optional entry.text cause) :
    Offends line optional entry cause
  | value {name message : Text} {slot : Slot} (hdeclares : Declares entry ⟨name, some slot⟩)
    (hread : Expression.read slot.text line.site (line.offset + slot.column) = .error message) :
    Offends line optional entry (.reported message)

/-- An entry that is a parameter in its place is read as this parameter. -/
theorem Takes.outcome_eq {taken : Parameter Expression} (h : Takes line entry taken)
    (hplace : optional = true → HasDefault entry) :
    (Reading.resolveParameter (.standard fs) line (parameter optional entry)).outcome state =
      (.ok taken, state) := by
  cases h with
  | required hdeclares =>
    rw [hdeclares.parameter_eq hplace]
    rfl
  | optional hdeclares hread =>
    rw [hdeclares.parameter_eq hplace]
    exact yields_bind.mpr
      ⟨_, state, Services.yields_fill.mpr (Prod.ext hread rfl), yields_pure.mpr ⟨rfl, rfl⟩⟩

/-- An entry with something wrong in it fails, and the error is on the line. -/
theorem Offends.outcome_eq (h : Offends line (optional = true) entry cause) :
    (Reading.resolveParameter (.standard fs) line (parameter optional entry)).outcome state =
      (.error (line.fault cause), state) := by
  cases h with
  | text hmisses =>
    rw [hmisses.parameter_eq]
    rfl
  | value hdeclares hread =>
    rw [hdeclares.parameter_eq fun _ => hdeclares.hasDefault_iff.mpr rfl]
    refine outcome_bind_eq_error.mpr (.inl ?_)
    rw [Services.fill, Services.outcome_call]
    show ((Expression.read _ line.site _).mapError _, state) = _
    rw [hread]
    rfl

/-- An entry is a parameter in its place, or something is wrong with it. -/
theorem takes_or_offends (line : Line) (optional : Bool) (entry : Slot) :
    (∃ taken, Takes line entry taken ∧ (optional = true → HasDefault entry)) ∨
      ∃ cause, Offends line (optional = true) entry cause := by
  rcases declares_or_misses optional entry with ⟨⟨name, default⟩, hdeclares, hplace⟩ | ⟨cause, hmisses⟩
  · cases default with
    | none => exact .inl ⟨_, .required hdeclares, hplace⟩
    | some slot =>
      cases hread : Expression.read slot.text line.site (line.offset + slot.column) with
      | error message => exact .inr ⟨_, .value hdeclares hread⟩
      | ok value => exact .inl ⟨_, .optional hdeclares hread, hplace⟩
  · exact .inr ⟨cause, .text hmisses⟩

/-- Reading an entry succeeds just if it is a parameter in its place. -/
theorem yields_parameter {taken : Parameter Expression} :
    Yields (Reading.resolveParameter (.standard fs) line (parameter optional entry)) state taken next ↔
      next = state ∧ Takes line entry taken ∧ (optional = true → HasDefault entry) := by
  unfold Yields
  constructor
  · intro h
    rcases takes_or_offends line optional entry with ⟨other, htakes, hplace⟩ | ⟨cause, hoffends⟩
    · cases h.symm.trans (htakes.outcome_eq hplace)
      exact ⟨rfl, htakes, hplace⟩
    · cases h.symm.trans hoffends.outcome_eq
  · rintro ⟨rfl, htakes, hplace⟩
    exact htakes.outcome_eq hplace

/-- Reading an entry fails just if something is wrong with it. -/
theorem fails_parameter :
    (Reading.resolveParameter (.standard fs) line (parameter optional entry)).outcome state =
        (.error e, next) ↔
      next = state ∧ ∃ cause, Offends line (optional = true) entry cause ∧ e = line.fault cause := by
  constructor
  · intro h
    rcases takes_or_offends line optional entry with ⟨taken, htakes, hplace⟩ | ⟨cause, hoffends⟩
    · cases h.symm.trans (htakes.outcome_eq hplace)
    · cases h.symm.trans hoffends.outcome_eq
      exact ⟨rfl, cause, hoffends, rfl⟩
  · rintro ⟨rfl, cause, hoffends, rfl⟩
    exact hoffends.outcome_eq

/-! ## Lists of entries -/

/-- No entry without a default is behind one that has a default. -/
def InOrder (entries : List Slot) : Prop :=
  entries.Pairwise fun earlier later => HasDefault earlier → HasDefault later

/-- Behind an entry, a default is asked for if it was before, or if the entry has one. -/
theorem asked_behind : (optional || (splitDefault entry.text).2.isSome) = true ↔
    optional = true ∨ HasDefault entry := by
  rw [Bool.or_eq_true, hasDefault_iff]

/-- Entries are in their places behind others just if the first of them is, and the others are
behind it. -/
theorem inPlace_cons {asked : Prop} :
    ((asked → ∀ each ∈ entry :: entries, HasDefault each) ∧ InOrder (entry :: entries)) ↔
      (asked → HasDefault entry) ∧
        ((asked ∨ HasDefault entry → ∀ each ∈ entries, HasDefault each) ∧ InOrder entries) := by
  unfold InOrder
  rw [List.pairwise_cons]
  constructor
  · rintro ⟨hasked, hfirst, hrest⟩
    refine ⟨fun h => hasked h entry List.mem_cons_self, ?_, hrest⟩
    rintro (h | h) each heach
    · exact hasked h each (List.mem_cons_of_mem entry heach)
    · exact hfirst each heach h
  · rintro ⟨hfirst, hrest, horder⟩
    refine ⟨fun h => List.forall_mem_cons.mpr ⟨hfirst h, hrest (.inl h)⟩, fun each heach h => ?_, horder⟩
    exact hrest (.inr h) each heach

/-- The entries of a list are read just if they are parameters in their places. -/
theorem yields_parameters {taken : List (Parameter Expression)} :
    Yields ((parameters optional entries).mapM (Reading.resolveParameter (.standard fs) line)) state
        taken next ↔
      next = state ∧ List.Forall₂ (Takes line) entries taken ∧
        (optional = true → ∀ each ∈ entries, HasDefault each) ∧ InOrder entries := by
  -- by induction on the entries; once a default has been seen, one is asked for in all entries
  -- behind it
  induction entries generalizing optional taken state with
  | nil =>
    rw [parameters, List.mapM_nil, yields_pure]
    constructor
    · rintro ⟨rfl, rfl⟩
      exact ⟨rfl, .nil, fun _ each h => absurd h List.not_mem_nil, .nil⟩
    · rintro ⟨rfl, htakes, -⟩
      cases htakes
      exact ⟨rfl, rfl⟩
  | cons entry entries ih =>
    simp only [parameters, yields_mapM_cons, yields_parameter, ih, asked_behind, inPlace_cons]
    constructor
    · rintro ⟨first, _, rest, ⟨rfl, hfirst, hplace⟩, ⟨rfl, hrest, hbehind⟩, rfl⟩
      exact ⟨rfl, .cons hfirst hrest, hplace, hbehind⟩
    · rintro ⟨rfl, htakes, hplace, hbehind⟩
      cases htakes with
      | cons hfirst hrest =>
        exact ⟨_, _, _, ⟨rfl, hfirst, hplace⟩, ⟨rfl, hrest, hbehind⟩, rfl⟩

/-- A list of entries is one of parameters, those without a default first. -/
structure WellFormed (line : Line) (entries : List Slot) : Prop where
  taken : ∀ entry ∈ entries, ∃ parameter, Takes line entry parameter
  inOrder : InOrder entries

/-- An empty list is in order. -/
theorem wellFormed_nil : WellFormed line [] := ⟨fun _ h => absurd h List.not_mem_nil, .nil⟩

/-- A list is in order if its first entry is, and if the others are in order behind it. -/
theorem wellFormed_cons {asked : Prop} :
    ((asked → ∀ each ∈ entry :: entries, HasDefault each) ∧ WellFormed line (entry :: entries)) ↔
      ((∃ taken, Takes line entry taken) ∧ (asked → HasDefault entry)) ∧
        (asked ∨ HasDefault entry → ∀ each ∈ entries, HasDefault each) ∧ WellFormed line entries := by
  constructor
  · rintro ⟨hasked, htaken, horder⟩
    obtain ⟨hfirst, hrest⟩ := List.forall_mem_cons.mp htaken
    obtain ⟨hplace, hbehind, horder⟩ := inPlace_cons.mp ⟨hasked, horder⟩
    exact ⟨⟨hfirst, hplace⟩, hbehind, hrest, horder⟩
  · rintro ⟨⟨hfirst, hplace⟩, hbehind, hrest, horder⟩
    obtain ⟨hasked, horder⟩ := inPlace_cons.mpr ⟨hplace, hbehind, horder⟩
    exact ⟨hasked, List.forall_mem_cons.mpr ⟨hfirst, hrest⟩, horder⟩

/-- A list is well formed just if it can be read. -/
theorem wellFormed_iff_exists :
    WellFormed line entries ↔ InOrder entries ∧ ∃ taken, List.Forall₂ (Takes line) entries taken := by
  have hexists : (∀ entry ∈ entries, ∃ parameter, Takes line entry parameter) ↔
      ∃ taken, List.Forall₂ (Takes line) entries taken := by
    induction entries with
    | nil => exact ⟨fun _ => ⟨[], .nil⟩, fun _ _ h => absurd h List.not_mem_nil⟩
    | cons entry entries ih =>
      rw [List.forall_mem_cons, ih]
      constructor
      · rintro ⟨⟨first, hfirst⟩, rest, hrest⟩
        exact ⟨first :: rest, .cons hfirst hrest⟩
      · rintro ⟨_, _ | ⟨hfirst, hrest⟩⟩
        exact ⟨⟨_, hfirst⟩, _, hrest⟩
  rw [← hexists]
  exact ⟨fun h => ⟨h.inOrder, h.taken⟩, fun h => ⟨h.2, h.1⟩⟩

/-- The reading of a list fails just if something is wrong with an entry behind some that are in
order. -/
theorem fails_parameters :
    ((parameters optional entries).mapM (Reading.resolveParameter (.standard fs) line)).outcome state =
        (.error e, next) ↔
      next = state ∧ ∃ front entry back cause, entries = front ++ entry :: back ∧
        (optional = true → ∀ each ∈ front, HasDefault each) ∧ WellFormed line front ∧
        Offends line (optional = true ∨ ∃ each ∈ front, HasDefault each) entry cause ∧
        e = line.fault cause := by
  -- by induction on the entries: the first one offends, or it is taken and one of the others does
  induction entries generalizing optional state with
  | nil =>
    rw [parameters, List.mapM_nil]
    constructor
    · intro h
      cases h
    · rintro ⟨-, front, other, back, cause, hsplit, -⟩
      exact absurd hsplit.symm (List.append_ne_nil_of_right_ne_nil front (List.cons_ne_nil other back))
  | cons entry entries ih =>
    simp only [parameters, outcome_mapM_cons_eq_error, yields_parameter, fails_parameter, ih,
      asked_behind]
    constructor
    · rintro (⟨rfl, cause, hoffends, rfl⟩ |
        ⟨taken, _, ⟨rfl, htakes, hplace⟩, rfl, front, other, back, cause, rfl, hbehind, hfront,
          hoffends, rfl⟩)
      · refine ⟨rfl, [], entry, entries, cause, rfl, fun _ _ h => absurd h List.not_mem_nil,
          wellFormed_nil, ?_, rfl⟩
        -- with nothing in front, a default is asked for only from outside
        simpa using hoffends
      · obtain ⟨hasked, hfront⟩ := wellFormed_cons.mpr ⟨⟨⟨taken, htakes⟩, hplace⟩, hbehind, hfront⟩
        refine ⟨rfl, entry :: front, other, back, cause, rfl, hasked, hfront, ?_, rfl⟩
        simpa [or_assoc] using hoffends
    · rintro ⟨rfl, front, other, back, cause, hsplit, hasked, hfront, hoffends, rfl⟩
      cases front with
      | nil =>
        cases hsplit
        refine .inl ⟨rfl, cause, ?_, rfl⟩
        simpa using hoffends
      | cons first front =>
        cases hsplit
        obtain ⟨⟨⟨taken, htakes⟩, hplace⟩, hbehind, hfront⟩ := wellFormed_cons.mp ⟨hasked, hfront⟩
        refine .inr ⟨taken, next, ⟨rfl, htakes, hplace⟩, rfl, front, other, back, cause, rfl, hbehind,
          hfront, ?_, rfl⟩
        simpa [or_assoc] using hoffends

/-! ## Any services -/

/-- Where a default is asked for, an entry has one, and it is kept. -/
theorem defaultValue_of_yields {taken : Parameter E}
    (h : Yields (Reading.resolveParameter services line (parameter optional entry)) state taken next) :
    (HasDefault entry ↔ taken.defaultValue.isSome = true) ∧ (optional = true → HasDefault entry) := by
  cases hparameter : parameter optional entry with
  | error cause =>
    rw [hparameter] at h
    cases h
  | ok declared =>
    obtain ⟨hdeclares, hplace⟩ := parameter_eq_ok_iff.mp hparameter
    rw [hparameter] at h
    refine ⟨hdeclares.hasDefault_iff.trans ?_, hplace⟩
    -- filling in the default neither adds one nor drops one
    obtain ⟨name, default⟩ := declared
    cases default with
    | none =>
      obtain ⟨rfl, -⟩ := yields_pure.mp h
      exact Iff.rfl
    | some slot =>
      obtain ⟨value, _, -, h⟩ := yields_bind.mp h
      obtain ⟨rfl, -⟩ := yields_pure.mp h
      exact Iff.rfl

/-- Those without a default come first, and where a default is asked for there are none. -/
theorem split_of_yields {taken : List (Parameter E)}
    (h : Yields ((parameters optional entries).mapM (Reading.resolveParameter services line)) state
      taken next) :
    ∃ front back, taken = front ++ back ∧ (∀ each ∈ front, each.defaultValue = none) ∧
      (∀ each ∈ back, each.defaultValue.isSome = true) ∧ (optional = true → front = []) := by
  induction entries generalizing optional taken state with
  | nil =>
    obtain ⟨rfl, -⟩ := yields_pure.mp h
    exact ⟨[], [], rfl, fun _ h => absurd h List.not_mem_nil, fun _ h => absurd h List.not_mem_nil,
      fun _ => rfl⟩
  | cons entry entries ih =>
    obtain ⟨first, middle, rest, hfirst, hrest, rfl⟩ := yields_mapM_cons.mp h
    obtain ⟨hdefault, hplace⟩ := defaultValue_of_yields hfirst
    obtain ⟨front, back, rfl, hfront, hback, hasked⟩ := ih hrest
    cases hsome : first.defaultValue with
    | none =>
      have hnone : ¬HasDefault entry := by simp [hdefault, hsome]
      refine ⟨first :: front, back, rfl, List.forall_mem_cons.mpr ⟨hsome, hfront⟩, hback, ?_⟩
      exact fun h => absurd (hplace h) hnone
    | some value =>
      have hfirst : first.defaultValue.isSome = true := by rw [hsome]; rfl
      -- the others stand behind an entry with a default
      obtain rfl := hasked (asked_behind.mpr (.inr (hdefault.mpr hfirst)))
      exact ⟨[], first :: back, rfl, fun _ h => absurd h List.not_mem_nil,
        List.forall_mem_cons.mpr ⟨hfirst, hback⟩, fun _ => rfl⟩

/-! ## Definitions -/

/-- The line of a definition is read by its argument list. -/
theorem ofLine_of_head? {name : Text} (h : head? '=' line.text = some (name, entries))
    (afterConditional : Bool) :
    Reading.ofLine afterConditional line = .ok (.definition name (parameters false entries)) := by
  -- the head of a definition starts with its mark, which decides how the line is read
  have hsign : line.text.head? = some Mark.definition.char := by
    unfold head? at h
    split at h
    · cases h
    · rename_i c t htext
      by_cases hc : c = '='
      · rw [htext, hc]
        rfl
      · rw [if_pos hc] at h
        cases h
  rw [Reading.ofLine_of_mark hsign]
  show Reading.ofDefinition line = _
  unfold Reading.ofDefinition
  rw [h]

/-- A line with the sign of a definition and no argument list is not read. -/
theorem outcome_of_head?_eq_none {directories : List Text} {afterConditional : Bool}
    (hsign : line.text.head? = some Mark.definition.char) (h : head? '=' line.text = none) :
    (Assembly.resolved services directories afterConditional line).outcome state =
      (.error (line.fault (.invalidMixin line.text.tail)), state) := by
  have hread : Reading.ofLine afterConditional line =
      .error (line.fault (.invalidMixin line.text.tail)) := by
    rw [Reading.ofLine_of_mark hsign]
    show Reading.ofDefinition line = _
    unfold Reading.ofDefinition
    rw [h]
    obtain ⟨t, ht⟩ := List.head?_eq_some_iff.mp hsign
    rw [ht, Text.dropUnit_cons (by decide), List.tail_cons]
  unfold Assembly.resolved
  rw [hread]
  rfl

/-- The parameters of a definition have been read one by one, from the entries of its line. -/
theorem definition_of_resolve {directories : List Text} {afterConditional : Bool} {reading : Reading}
    {outcome : Outcome E} {place : Node.Place} {node : Node E} {name : Text}
    {taken : List (Parameter E)} (hread : Reading.ofLine afterConditional line = .ok reading)
    (hresolve : Yields (reading.resolve services directories line) state outcome next)
    (hgives : outcome.Gives place node) (hnode : node.construct = .mixinDefinition name taken) :
    ∃ entries middle, head? '=' line.text = some (name, entries) ∧
      Yields ((parameters false entries).mapM (Reading.resolveParameter services line)) state taken
        middle := by
  have hmark := Reading.mark?_of_resolve hresolve hgives
  rw [hnode] at hmark
  have hdefinition : Reading.ofDefinition line = .ok reading :=
    (Reading.mark_of_ofLine hread hmark.symm).2
  unfold Reading.ofDefinition at hdefinition
  split at hdefinition
  · rename_i entries hhead
    cases hdefinition
    obtain ⟨filled, middle, hfilled, h⟩ := yields_bind.mp hresolve
    obtain ⟨rfl, -⟩ := yields_pure.mp h
    cases hnode.symm.trans hgives.2.1
    exact ⟨entries, middle, hhead, hfilled⟩
  · cases hdefinition

/-- A definition is put out with its parameters just if its entries are taken in their order. -/
theorem yields_definition {directories : List Text} {name : Text} {outcome : Outcome Expression} :
    Yields (Reading.resolve (.standard fs) directories line
        (.definition name (parameters false entries))) state outcome next ↔
      next = state ∧ InOrder entries ∧ ∃ taken,
        outcome = .node ⟨.mixinDefinition name taken, line.site, [], []⟩ ∧
          List.Forall₂ (Takes line) entries taken := by
  rw [Reading.resolve, yields_bind]
  simp only [yields_parameters, yields_pure]
  constructor
  · rintro ⟨taken, _, ⟨rfl, htakes, -, horder⟩, rfl, rfl⟩
    exact ⟨rfl, horder, taken, rfl, htakes⟩
  · rintro ⟨rfl, horder, taken, rfl, htakes⟩
    exact ⟨taken, next, ⟨rfl, htakes, nofun, horder⟩, rfl, rfl⟩

/-- A definition fails just at the first entry that offends. -/
theorem fails_definition {directories : List Text} {name : Text} :
    (Reading.resolve (.standard fs) directories line
        (.definition name (parameters false entries))).outcome state = (.error e, next) ↔
      next = state ∧ ∃ front entry back cause, entries = front ++ entry :: back ∧
        WellFormed line front ∧ Offends line (∃ each ∈ front, HasDefault each) entry cause ∧
        e = line.fault cause := by
  rw [Reading.resolve, outcome_bind_eq_error, fails_parameters]
  constructor
  · rintro (⟨rfl, front, entry, back, cause, hsplit, -, hfront, hoffends, he⟩ | ⟨taken, _, -, h⟩)
    · exact ⟨rfl, front, entry, back, cause, hsplit, hfront, by simpa using hoffends, he⟩
    · cases h
  · rintro ⟨rfl, front, entry, back, cause, hsplit, hfront, hoffends, he⟩
    exact .inl ⟨rfl, front, entry, back, cause, hsplit, nofun, hfront, by simpa using hoffends, he⟩

/-- A line that starts with an equals sign is a definition if an argument list follows its name.
With the standard services it is accepted just if the list is well formed: each entry is a variable,
or a variable with a default that is an expression, and none without a default is behind one that
has a default. It is then read as these parameters, in order and without their marks. Otherwise the
error is that of the first entry at which something is wrong. In every document, whatever the
services, the parameters of a definition without a default therefore come first. -/
theorem definition_exact :
    (∀ fs directories afterConditional (line : Line) (state : σ), line.text.head? = some '=' →
      head? '=' line.text = none →
      (Assembly.resolved (.standard fs) directories afterConditional line).outcome state =
        (.error (line.fault (.invalidMixin line.text.tail)), state)) ∧
    (∀ fs directories afterConditional (line : Line) name entries (state : σ),
      head? '=' line.text = some (name, entries) →
      ((∃ outcome next,
          Yields (Assembly.resolved (.standard fs) directories afterConditional line) state outcome
            next) ↔ WellFormed line entries) ∧
      (∀ outcome next,
        Yields (Assembly.resolved (.standard fs) directories afterConditional line) state outcome next →
        next = state ∧ ∃ taken,
          outcome = .node ⟨.mixinDefinition name taken, line.site, [], []⟩ ∧
            List.Forall₂ (Takes line) entries taken) ∧
      ∀ e next,
        (Assembly.resolved (.standard fs) directories afterConditional line).outcome state =
            (.error e, next) ↔
          next = state ∧ ∃ front entry back cause, entries = front ++ entry :: back ∧
            WellFormed line front ∧ Offends line (∃ each ∈ front, HasDefault each) entry cause ∧
            e = line.fault cause) ∧
    ∀ (services : Services σ E) overrides source document (state next : σ) place node name taken,
      Yields (Document.parseWith services overrides source) state document next →
      document.Holds place node → node.construct = .mixinDefinition name taken →
      ∃ front back, taken = front ++ back ∧ (∀ each ∈ front, each.defaultValue = none) ∧
        ∀ each ∈ back, each.defaultValue.isSome = true := by
  refine ⟨fun fs directories afterConditional line state => outcome_of_head?_eq_none, ?_, ?_⟩
  · intro fs directories afterConditional line name entries state hhead
    rw [Assembly.resolved_of_ofLine (ofLine_of_head? hhead afterConditional)]
    refine ⟨⟨?_, ?_⟩, ?_, fun e next => fails_definition⟩
    · rintro ⟨outcome, next, h⟩
      obtain ⟨-, horder, taken, -, htakes⟩ := yields_definition.mp h
      exact wellFormed_iff_exists.mpr ⟨horder, taken, htakes⟩
    · intro h
      obtain ⟨horder, taken, htakes⟩ := wellFormed_iff_exists.mp h
      exact ⟨_, state, yields_definition.mpr ⟨rfl, horder, taken, rfl, htakes⟩⟩
    · intro outcome next h
      obtain ⟨hstate, -, taken, houtcome, htakes⟩ := yields_definition.mp h
      exact ⟨hstate, taken, houtcome, htakes⟩
  · intro services overrides source document state next place node name taken hparse hholds hnode
    -- in a document every definition comes from a line that was read as one
    obtain ⟨lines, hlines, hstems⟩ := Document.stemsFrom_of_holds hparse
    rcases hstems place node hholds with ⟨-, hrule⟩ | hgiven
    · rw [hnode] at hrule
      cases hrule
    · obtain ⟨line, reading, outcome, _, _, -, hread, hresolve, hgives, -⟩ := hgiven
      obtain ⟨entries, _, -, htaken⟩ := definition_of_resolve hread hresolve hgives hnode
      obtain ⟨front, back, hsplit, hfront, hback, -⟩ := split_of_yields htaken
      exact ⟨front, back, hsplit, hfront, hback⟩

/-- A definition whose list does not end, one with two parameters, one whose second entry is out of
order in front of one that is no variable, and a document with a definition. -/
theorem definition_of_two :
    (Assembly.resolved (.standard ⟨['/'], .empty⟩) [] false ⟨"=m(!a", 0, 1, 0, none, []⟩).outcome () =
      (.error ⟨.invalidMixin "m(!a", ⟨1, none⟩⟩, ()) ∧
    WellFormed ⟨"=m(!a, !b = f(x, \"=\"))", 0, 1, 0, none, []⟩
      [⟨"!a", 3⟩, ⟨"!b = f(x, \"=\")", 7⟩] ∧
    (∃ front entry back, [⟨"!a = 1", 3⟩, ⟨"!b", 11⟩, ⟨"7", 15⟩] = front ++ entry :: back ∧
      WellFormed ⟨"=m(!a = 1, !b, 7)", 0, 1, 0, none, []⟩ front ∧
      Offends ⟨"=m(!a = 1, !b, 7)", 0, 1, 0, none, []⟩ (∃ each ∈ front, HasDefault each) entry
        (.requiredAfterOptional "!b")) ∧
    ∃ front back : List (Parameter Expression),
      [⟨['a'], none⟩, ⟨['b'], some ⟨['1'], ⟨1, none⟩, 12⟩⟩] = front ++ back ∧
        (∀ each ∈ front, each.defaultValue = none) ∧
          ∀ each ∈ back, each.defaultValue.isSome = true := by
  let fs : FileSystem := ⟨['/'], .empty⟩
  refine ⟨(@definition_exact Unit Expression).1 fs [] false ⟨"=m(!a", 0, 1, 0, none, []⟩ () rfl
    (by decide), ?_, ?_, ?_⟩
  · have hread : ((Assembly.resolved (.standard fs) [] false
        ⟨"=m(!a, !b = f(x, \"=\"))", 0, 1, 0, none, []⟩).outcome ()).1.isOk = true := by
      decide +kernel
    obtain ⟨outcome, houtcome⟩ := exists_eq_ok.mp hread
    exact ((@definition_exact Unit Expression).2.1 fs [] false _ ['m'] _ () (by decide)).1.mp
      ⟨outcome, (), Prod.ext houtcome rfl⟩
  · have hread : ((Assembly.resolved (.standard fs) [] false
        ⟨"=m(!a = 1, !b, 7)", 0, 1, 0, none, []⟩).outcome ()).1.map (fun _ => ()) =
          .error ⟨.requiredAfterOptional "!b", ⟨1, none⟩⟩ := by
      decide +kernel
    obtain ⟨-, front, entry, back, cause, hsplit, hfront, hoffends, he⟩ :=
      (((@definition_exact Unit Expression).2.1 fs [] false _ ['m']
        [⟨"!a = 1", 3⟩, ⟨"!b", 11⟩, ⟨"7", 15⟩] () (by decide)).2.2 _ ()).mp
        (Prod.ext (map_eq_error.mp hread) rfl)
    cases (SyntaxError.mk.inj he).1
    exact ⟨front, entry, back, hsplit, hfront, hoffends⟩
  · have hparse : (Document.parse fs {} "=m(!a, !b = 1)").map
        (fun document => document.children.map Node.construct) =
          .ok [.mixinDefinition ['m'] [⟨['a'], none⟩, ⟨['b'], some ⟨['1'], ⟨1, none⟩, 12⟩⟩]] := by
      decide +kernel
    obtain ⟨document, hparse, hchildren⟩ := map_eq_ok.mp hparse
    obtain ⟨node, hnode, hconstruct⟩ := List.map_eq_singleton_iff.mp hchildren
    exact (@definition_exact Unit Expression).2.2 (.standard fs) {} _ document () () .root node ['m'] _
      (Document.parse_eq_ok.mp hparse) ⟨node, hnode ▸ List.mem_cons_self, .self⟩ hconstruct

end Mixin

end Stylesheet
