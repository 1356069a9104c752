import Stylesheet.Proofs.Construct.Columns
import Stylesheet.Proofs.Construct.Entries

/-!
# Splitting argument lists

Splitting an argument list undoes joining its entries, and says where in the list each of them
stands.

- `Arguments.Padded`: an entry with blanks around it, and `Padded.Sound`, what may be such an entry.
- `Arguments.AddsUp`: the column of a position, which is exact as long as numbers are
  (`AddsUp.eq_add`).
- `Arguments.splitBy?_of_trim`: all that splitting a list in brackets does.
- `Arguments.placed_slotsAt`: the slots of entries stand in the joined entries, from left to right.
- `Arguments.split_join_exact`: joined entries are split again, and slots are slices of the list.
-/

namespace Stylesheet.Arguments

open Expression Text

/-! ## Columns -/

/-- The column of a position in a list whose first character has a column: the blanks in front of
the bracket, the bracket, the entries and commas in front, and the blanks in front of the text are
added one after the other. -/
def AddsUp (column : Int) (position : Nat) (sum : Int) : Prop :=
  ∃ outer start lead : Nat, position = outer + 1 + start + lead ∧
    sum = Number.plus (Number.plus (Number.plus (Number.plus column outer) 1) start) lead

/-- As long as the numbers are exact, a column is its sum. -/
theorem AddsUp.eq_add {column sum : Int} {position : Nat} (h : AddsUp column position sum)
    (hexact : column.natAbs + position ≤ Number.exactBound) : sum = column + position := by
  obtain ⟨outer, start, lead, rfl, rfl⟩ := h
  have houter : Number.plus column outer = column + outer := Number.plus_of_natAbs_le (by omega)
  have hbracket : Number.plus (column + outer) 1 = column + outer + 1 :=
    Number.plus_of_natAbs_le (by omega)
  have hstart : Number.plus (column + outer + 1) start = column + outer + 1 + start :=
    Number.plus_of_natAbs_le (by omega)
  have hlead : Number.plus (column + outer + 1 + start) lead = column + outer + 1 + start + lead :=
    Number.plus_of_natAbs_le (by omega)
  rw [houter, hbracket, hstart, hlead]
  omega

/-! ## Lists in brackets -/

variable {plus : Int → Int → Int} {column : Int} {t inner : Text}

/-- What stands in brackets is found between them. -/
theorem inner?_brackets (inner : Text) : inner? ('(' :: (inner ++ [')'])) = some inner := by
  simp [inner?]

/-- Brackets keep blanks inside. -/
theorem trim_brackets (inner : Text) : trim ('(' :: (inner ++ [')'])) = '(' :: (inner ++ [')']) := by
  have hstart : trimStart ('(' :: (inner ++ [')'])) = '(' :: (inner ++ [')']) :=
    List.dropWhile_cons_of_neg (by decide)
  unfold trim
  rw [hstart]
  show ((('(' :: inner) ++ [')']).reverse.dropWhile isBlank).reverse = ('(' :: inner) ++ [')']
  rw [List.reverse_append, List.reverse_singleton, List.singleton_append,
    List.dropWhile_cons_of_neg (by decide), List.reverse_cons, List.reverse_reverse]

/-- The slots of a list in brackets with something between them. -/
theorem splitBy?_of_trim (ht : trim t = '(' :: (inner ++ [')'])) (hinner : inner ≠ []) :
    splitBy? plus column t =
      some (slotsBy plus (plus (plus column (units (leadingBlanks t))) 1) 0 (entries inner)) := by
  unfold splitBy?
  dsimp only
  rw [ht, inner?_brackets]
  simp [hinner]

/-- Whatever is split is blank, or has brackets around it. -/
theorem trim_of_splitBy? {slots : List Slot} (h : splitBy? plus column t = some slots) :
    (trim t = [] ∧ slots = []) ∨
      ∃ inner, trim t = '(' :: (inner ++ [')']) ∧
        ((inner = [] ∧ slots = []) ∨
          (inner ≠ [] ∧
            slots = slotsBy plus (plus (plus column (units (leadingBlanks t))) 1) 0 (entries inner))) := by
  by_cases hblank : trim t = []
  · unfold splitBy? at h
    dsimp only at h
    rw [hblank] at h
    cases h
    exact .inl ⟨hblank, rfl⟩
  · have hsplit := h
    unfold splitBy? at hsplit
    dsimp only at hsplit
    rw [if_neg (by simpa using hblank)] at hsplit
    obtain ⟨inner, hinner, hslots⟩ := Option.map_eq_some_iff.mp hsplit
    have hbrackets : trim t = '(' :: (inner ++ [')']) := eq_of_inner? hinner
    refine .inr ⟨inner, hbrackets, ?_⟩
    by_cases hempty : inner = []
    · rw [if_pos (by simpa using hempty)] at hslots
      exact .inl ⟨hempty, hslots.symm⟩
    · rw [splitBy?_of_trim hbrackets hempty] at h
      cases h
      exact .inr ⟨hempty, rfl⟩

/-! ## Joining -/

/-- An entry of an argument list with blanks around it. -/
structure Padded where
  front : Text := []
  text : Text
  behind : Text := []

namespace Padded

/-- How the entry stands in the list. -/
def written (entry : Padded) : Text := entry.front ++ entry.text ++ entry.behind

/-- What may be an entry: an expression without outer blanks, or nothing at all, with no comma
outside brackets and strings, and blanks around it. -/
structure Sound (entry : Padded) : Prop where
  front : entry.front.all isBlank = true
  behind : entry.behind.all isBlank = true
  trimmed : trim entry.text = entry.text
  readable : entry.text = [] ∨ defect? entry.text = none
  undivided : Undivided entry.text

/-- What is read as an expression, or empty, is balanced. -/
theorem balanced_of_readable {t : Text} (h : t = [] ∨ defect? t = none) : Balanced t := by
  rcases h with hempty | hdefect
  · rw [hempty]
    exact .nil
  · exact (defect?_eq_none_iff.mp hdefect).2

theorem sound_iff {entry : Padded} :
    entry.Sound ↔ entry.front.all isBlank = true ∧ entry.behind.all isBlank = true ∧
      trim entry.text = entry.text ∧ (entry.text = [] ∨ defect? entry.text = none) ∧
      entries entry.text = [entry.text] := by
  constructor
  · intro h
    exact ⟨h.front, h.behind, h.trimmed, h.readable,
      (undivided_iff_entries (balanced_of_readable h.readable)).mp h.undivided⟩
  · rintro ⟨hfront, hbehind, htrim, hread, hentries⟩
    exact ⟨hfront, hbehind, htrim, hread,
      (undivided_iff_entries (balanced_of_readable hread)).mpr hentries⟩

instance (entry : Padded) : Decidable entry.Sound :=
  decidable_of_iff' _ sound_iff

/-- The blanks in front of the text. Those of an entry without text all stand in front of it. -/
def lead (entry : Padded) : Text :=
  if entry.text = [] then entry.front ++ entry.behind else entry.front

variable {entry : Padded}

theorem Sound.balanced (h : entry.Sound) : Balanced entry.text :=
  balanced_of_readable h.readable

/-- Blanks around a text divide it no more than it was. -/
theorem Sound.spans (h : entry.Sound) : Balanced entry.written ∧ Undivided entry.written := by
  have hbalanced := h.balanced
  have hfront := balanced_of_blank h.front
  have hbehind := balanced_of_blank h.behind
  have hwritten : Balanced entry.written := (hfront.append hbalanced).append hbehind
  refine ⟨hwritten, (Place.spans_iff_undivided hwritten).mp ?_⟩
  -- all three parts start at the same place, and blanks hold no comma
  have hplace : ∀ {s : Text}, Balanced s → Place.after {} s = {} := fun hs =>
    Place.after_ofBracketing (after_eq_ok_iff_balanced.mpr hs)
  have hblank : ∀ {s : Text}, s.all isBlank = true → Place.Spans {} s := by
    rintro s hs front back rfl
    rw [List.all_append, List.all_cons, Bool.and_eq_true, Bool.and_eq_true] at hs
    exact absurd List.mem_cons_self (not_special_of_isBlank hs.2.1)
  have htext := (Place.spans_iff_undivided hbalanced).mpr h.undivided
  exact ((hblank h.front).append (by rwa [hplace hfront])).append
    (by rw [hplace (hfront.append hbalanced)]; exact hblank h.behind)

theorem Sound.trim_written (h : entry.Sound) : trim entry.written = entry.text := by
  rw [written, trim_padded h.front h.behind, h.trimmed]

/-- The blanks in front of an entry are those that were written there; in front of nothing, all of
them. -/
theorem Sound.leadingBlanks_written (h : entry.Sound) : leadingBlanks entry.written = entry.lead := by
  have hstart : startsBlank entry.text = false := by
    rw [← h.trimmed]
    exact startsBlank_trim _
  unfold written lead
  -- an entry of nothing but blanks has them all in front, on whichever side they were written
  split
  · rename_i hempty
    have hall : (entry.front ++ entry.behind).all isBlank = true := by
      rw [List.all_append, h.front, h.behind]
      rfl
    have hpadded := leadingBlanks_padded (t := []) hall rfl
    rw [List.append_nil] at hpadded
    rw [hempty, List.append_nil]
    exact hpadded
  · rename_i hne
    rw [List.append_assoc]
    refine leadingBlanks_padded h.front ?_
    obtain ⟨c, rest, htext⟩ := List.exists_cons_of_ne_nil hne
    rw [htext] at hstart ⊢
    exact hstart

end Padded

/-- The slots of entries in a list, each behind those in front of it. -/
theorem getElem?_slotsBy (front : List Text) (entry : Text) (back : List Text) (start : Nat) :
    (slotsBy plus column start (front ++ entry :: back))[front.length]? =
      some ⟨trim entry,
        plus (plus column ((start + units (front.flatMap (· ++ [',']))) : Nat))
          (units (leadingBlanks entry))⟩ := by
  induction front generalizing start with
  | nil => rfl
  | cons first front ih =>
    show (slotsBy plus column _ (front ++ entry :: back))[front.length]? = _
    rw [ih, List.flatMap_cons, units_append, units_append]
    congr 5
    show _ = start + (units first + 1 + _)
    omega

/-- The texts of the slots are the entries without their outer blanks, whatever the columns are. -/
theorem map_text_slotsBy (start : Nat) (entries : List Text) :
    (slotsBy plus column start entries).map Slot.text = entries.map trim := by
  induction entries generalizing start with
  | nil => rfl
  | cons entry entries ih => exact congrArg (trim entry :: ·) (ih _)

/-! ## Where slots stand -/

/-- A slot stands in a list at a position, and has the column of that position. -/
structure Stands (column : Int) (t : Text) (slot : Slot × Nat) : Prop where
  column : AddsUp column slot.2 slot.1.column
  text : slice t slot.2 (units slot.1.text) = encode slot.1.text

/-- A slot stands behind another one, with exactly one comma and blanks between them. -/
structure Follows (t : Text) (slot next : Slot × Nat) : Prop where
  apart : slot.2 + units slot.1.text ≤ next.2
  between : ∃ behind front, behind.all isBlank = true ∧ front.all isBlank = true ∧
    slice t (slot.2 + units slot.1.text) (next.2 - (slot.2 + units slot.1.text)) =
      encode (behind ++ ',' :: front)

theorem slice_append (front middle back : Text) :
    slice (front ++ (middle ++ back)) (units front) (units middle) = encode middle :=
  slice_of_occurs ⟨front, back, (List.append_assoc _ _ _).symm, rfl⟩

/-- The slot of an entry that starts behind `outer` blanks, the bracket, and `start` units of
entries and commas, with its position in the list. -/
def slotAt (column : Int) (outer start : Nat) (entry : Text) : Slot × Nat :=
  (⟨trim entry, Number.plus (Number.plus (Number.plus (Number.plus column outer) 1) start)
    (units (leadingBlanks entry))⟩, outer + 1 + start + units (leadingBlanks entry))

/-- The slots of entries with their positions in the list. -/
def slotsAt (column : Int) (outer : Nat) : Nat → List Text → List (Slot × Nat)
  | _, [] => []
  | start, entry :: entries =>
    slotAt column outer start entry :: slotsAt column outer (start + units entry + 1) entries

theorem map_fst_slotsAt (outer start : Nat) (entries : List Text) :
    (slotsAt column outer start entries).map Prod.fst =
      slotsBy Number.plus (Number.plus (Number.plus column outer) 1) start entries := by
  induction entries generalizing start with
  | nil => rfl
  | cons entry entries ih => exact congrArg (_ :: ·) (ih _)

variable {whole front back entry next : Text} {entries : List Text} {outer start : Nat}

/-- The slot of an entry stands where the entry starts behind its blanks. -/
theorem stands_slotAt (hwhole : whole = front ++ (entry ++ back))
    (hfront : units front = outer + 1 + start) :
    Stands column whole (slotAt column outer start entry) := by
  obtain ⟨behind, -, hentry⟩ := trim_split entry
  refine ⟨⟨outer, start, units (leadingBlanks entry), rfl, rfl⟩, ?_⟩
  have hcut : whole = (front ++ leadingBlanks entry) ++ (trim entry ++ (behind ++ back)) := by
    rw [hwhole]
    conv => lhs; rw [hentry]
    simp only [List.append_assoc]
  have hslice := slice_append (front ++ leadingBlanks entry) (trim entry) (behind ++ back)
  rw [← hcut, units_append, hfront] at hslice
  exact hslice

/-- Between the slots of two entries that are joined stand the blanks behind the first, the comma
and the blanks in front of the second. -/
theorem follows_slotAt (hwhole : whole = front ++ (entry ++ ',' :: (next ++ back)))
    (hfront : units front = outer + 1 + start) :
    Follows whole (slotAt column outer start entry)
      (slotAt column outer (start + units entry + 1) next) := by
  obtain ⟨behind, hbehind, hentry⟩ := trim_split entry
  obtain ⟨behind', -, hnext⟩ := trim_split next
  have hunits : units entry = units (leadingBlanks entry) + units (trim entry) + units behind := by
    conv => lhs; rw [hentry]
    rw [units_append, units_append]
  have hgap : units (behind ++ ',' :: leadingBlanks next) =
      units behind + (1 + units (leadingBlanks next)) := by
    rw [units_append]
    rfl
  have hend : units (front ++ (leadingBlanks entry ++ trim entry)) =
      outer + 1 + start + units (leadingBlanks entry) + units (trim entry) := by
    rw [units_append, units_append, hfront, ← Nat.add_assoc]
  -- what stands between the two texts is cut out of the whole: blanks, the comma, blanks
  have hcut : whole = (front ++ (leadingBlanks entry ++ trim entry)) ++
      ((behind ++ ',' :: leadingBlanks next) ++ (trim next ++ (behind' ++ back))) := by
    rw [hwhole]
    conv => lhs; rw [hentry, hnext]
    simp only [List.append_assoc, List.cons_append]
  have hslice := slice_append (front ++ (leadingBlanks entry ++ trim entry))
    (behind ++ ',' :: leadingBlanks next) (trim next ++ (behind' ++ back))
  rw [← hcut, hend, hgap] at hslice
  have hlength : (slotAt column outer (start + units entry + 1) next).2 -
      ((slotAt column outer start entry).2 + units (slotAt column outer start entry).1.text) =
        units behind + (1 + units (leadingBlanks next)) := by
    dsimp only [slotAt]
    omega
  refine ⟨?_, behind, leadingBlanks next, hbehind, all_leadingBlanks next, ?_⟩
  · dsimp only [slotAt]
    omega
  · rw [hlength]
    exact hslice

theorem join_cons_eq (entry : Text) (entries : List Text) :
    ∃ behind, join [','] (entry :: entries) = entry ++ behind := by
  cases entries with
  | nil => exact ⟨[], rfl⟩
  | cons next entries =>
    rw [join_cons (List.cons_ne_nil _ _), List.append_assoc]
    exact ⟨_, rfl⟩

/-- The slots of entries stand in the joined entries, from left to right. -/
theorem placed_slotsAt (hwhole : whole = front ++ (join [','] entries ++ back))
    (hfront : units front = outer + 1 + start) :
    (∀ slot ∈ slotsAt column outer start entries, Stands column whole slot) ∧
      (slotsAt column outer start entries).IsChain (Follows whole) := by
  induction entries generalizing front start with
  | nil => exact ⟨fun slot hslot => absurd hslot List.not_mem_nil, .nil⟩
  | cons entry entries ih =>
    have hentry : Stands column whole (slotAt column outer start entry) := by
      obtain ⟨behind, hjoin⟩ := join_cons_eq entry entries
      rw [hjoin, List.append_assoc] at hwhole
      exact stands_slotAt hwhole hfront
    cases entries with
    | nil => exact ⟨List.forall_mem_singleton.mpr hentry, .singleton _⟩
    | cons next entries =>
      rw [join_cons (List.cons_ne_nil _ _)] at hwhole
      -- the rest of the list starts behind the entry and the comma
      have hrest : whole = (front ++ (entry ++ [','])) ++ (join [','] (next :: entries) ++ back) := by
        rw [hwhole]
        simp only [List.append_assoc]
      have hcomma : units (front ++ (entry ++ [','])) = outer + 1 + (start + units entry + 1) := by
        rw [units_append, units_append, hfront]
        show outer + 1 + start + (units entry + 1) = _
        omega
      obtain ⟨hstands, hchain⟩ := ih hrest hcomma
      refine ⟨List.forall_mem_cons.mpr ⟨hentry, hstands⟩, List.isChain_cons_cons.mpr ⟨?_, hchain⟩⟩
      obtain ⟨behind, hjoin⟩ := join_cons_eq next entries
      have hnext : whole = front ++ (entry ++ ',' :: (next ++ (behind ++ back))) := by
        rw [hwhole, hjoin]
        simp only [List.append_assoc, List.cons_append, List.nil_append]
      exact follows_slotAt hnext hfront

/-! ## Both ways -/

/-- The slots of a list that is split stand in it. -/
theorem placed_splitRounded? {slots : List Slot} (h : splitRounded? column t = some slots) :
    ∃ placed : List (Slot × Nat), placed.map Prod.fst = slots ∧
      (∀ slot ∈ placed, Stands column t slot) ∧ placed.IsChain (Follows t) := by
  have hnone : ∃ placed : List (Slot × Nat), placed.map Prod.fst = [] ∧
      (∀ slot ∈ placed, Stands column t slot) ∧ placed.IsChain (Follows t) :=
    ⟨[], rfl, fun slot hslot => absurd hslot List.not_mem_nil, .nil⟩
  rcases trim_of_splitBy? h with ⟨-, rfl⟩ | ⟨inner, hbrackets, ⟨-, rfl⟩ | ⟨-, rfl⟩⟩
  · exact hnone
  · exact hnone
  · obtain ⟨behind, -, ht⟩ := trim_split t
    have hwhole : t = (leadingBlanks t ++ ['(']) ++
        (join [','] (Arguments.entries inner) ++ ([')'] ++ behind)) := by
      rw [join_entries]
      conv => lhs; rw [ht, hbrackets]
      simp
    exact ⟨slotsAt column (units (leadingBlanks t)) 0 (Arguments.entries inner),
      map_fst_slotsAt _ _ _, placed_slotsAt hwhole (by rw [units_append]; rfl)⟩

/-- Joined entries are split again: the texts without the blanks around them, in their order, each
at the column of its position in the list. Whatever list is split, each slot is the slice of the
list at its position, and the slots stand behind each other, with exactly one comma and blanks
between two of them. The column of a position is that of the list's first character and the
position, exactly so as long as the numbers are exact. -/
theorem split_join_exact (column : Int) :
    (∀ entries : List Padded, entries ≠ [] → (∀ entry ∈ entries, entry.Sound) →
      entries.map Padded.written ≠ [[]] →
      ∃ slots, splitRounded? column ('(' :: (join [','] (entries.map Padded.written) ++ [')'])) =
          some slots ∧
        slots.map Slot.text = entries.map Padded.text ∧
        ∀ front entry back, entries = front ++ entry :: back →
          ∃ slot, slots[front.length]? = some slot ∧ slot.text = entry.text ∧
            AddsUp column (units ('(' :: (front.flatMap (·.written ++ [',']) ++ entry.lead)))
              slot.column) ∧
    (∀ t slots, splitRounded? column t = some slots →
      ∃ placed : List (Slot × Nat), placed.map Prod.fst = slots ∧
        (∀ slot ∈ placed, Stands column t slot) ∧ placed.IsChain (Follows t)) ∧
    (∀ position sum, AddsUp column position sum →
      column.natAbs + position ≤ Number.exactBound → sum = column + position) := by
  refine ⟨?_, fun t slots h => placed_splitRounded? h, fun position sum h hexact => h.eq_add hexact⟩
  intro entries hne hsound hempty
  have hwritten : entries.map Padded.written ≠ [] := by simpa using hne
  -- a sound entry has no comma that separates, so the list is cut just where it was joined
  have hentries : Arguments.entries (join [','] (entries.map Padded.written)) =
      entries.map Padded.written := by
    refine entries_join hwritten fun text htext => ?_
    obtain ⟨entry, hentry, rfl⟩ := List.mem_map.mp htext
    exact (hsound entry hentry).spans
  have hinner : join [','] (entries.map Padded.written) ≠ [] := by
    intro hnil
    rw [hnil] at hentries
    exact hempty hentries.symm
  refine ⟨_, splitBy?_of_trim (trim_brackets _) hinner, ?_, ?_⟩
  · rw [hentries, map_text_slotsBy, List.map_map]
    exact List.map_congr_left fun entry hentry => (hsound entry hentry).trim_written
  · rintro front entry back rfl
    have hentry := hsound entry (List.mem_append_right _ List.mem_cons_self)
    have hslot := @getElem?_slotsBy Number.plus (Number.plus (Number.plus column ((0 : Nat) : Int)) 1)
      (front.map Padded.written) entry.written (back.map Padded.written) 0
    rw [hentries, List.map_append, List.map_cons]
    rw [List.length_map] at hslot
    refine ⟨_, hslot, hentry.trim_written, ?_⟩
    refine ⟨0, units (front.flatMap (·.written ++ [','])), units entry.lead, ?_, ?_⟩
    · rw [units_cons, units_append]
      show 1 + _ = 0 + 1 + _ + _
      omega
    · rw [hentry.leadingBlanks_written, List.flatMap_map, Nat.zero_add]

/-- Commas of a nested call and of a string do not separate entries, and an entry may be empty. -/
theorem split_nested :
    ∃ slots, splitRounded? 3 "( f(a,b) ,  ,\"x,y\")".toList = some slots ∧
      slots.map Slot.text = ["f(a,b)".toList, [], "\"x,y\"".toList] ∧
      (slots[1]?.map Slot.column) = some 15 := by
  obtain ⟨slots, hsplit, htext, hcolumn⟩ := (split_join_exact 3).1
    [⟨[' '], "f(a,b)".toList, [' ']⟩, ⟨[' ', ' '], [], []⟩, ⟨[], "\"x,y\"".toList, []⟩]
    (List.cons_ne_nil _ _) (by decide +kernel) (by decide)
  refine ⟨slots, hsplit, htext, ?_⟩
  obtain ⟨slot, hslot, -, hsum⟩ := hcolumn [_] _ [_] rfl
  have hexact : slot.column = 3 + (12 : Nat) := (split_join_exact 3).2.2 _ _ hsum (by decide)
  rw [List.length_singleton] at hslot
  rw [hslot, Option.map_some, hexact]
  rfl

/-- Beyond the numbers up to which sums are exact, the column of an entry is not its position. -/
theorem split_rounded :
    (∀ entry ∈ [Padded.mk [] ['a'] [], Padded.mk [] ['b'] []], entry.Sound) ∧
      splitRounded? 9007199254740992 ('(' :: (join [','] [['a'], ['b']] ++ [')'])) =
        some [⟨['a'], 9007199254740992⟩, ⟨['b'], 9007199254740994⟩] ∧
      (9007199254740992 : Int) + units ['('] ≠ 9007199254740992 ∧
      (9007199254740992 : Int) + units ['(', 'a', ','] ≠ 9007199254740994 := by
  decide +kernel

end Stylesheet.Arguments
