import Stylesheet.Proofs.Construct.Splitting

/-!
# Checking argument lists

The inside of an argument list passes the check of an expression just if all of its entries do,
although it is cut into them without that check.

- `Expression.Passes`: a text passes the check, whether it is empty or not; `Expression.passes_iff`
  says that it is balanced then, and that blanks around it do not count.
- `Expression.after_beneath`: brackets that are open further out change nothing.
- `Arguments.passes_iff_slots`: the two ways to go through an argument list agree.
- `Arguments.Encloses`: a list that one pair of brackets encloses, with its entries.
-/

namespace Stylesheet

open Text

namespace Expression

variable {c : Char} {s t front behind : Text} {start state : Bracketing}

/-- The text passes the check of brackets and strings, also if it is empty. -/
def Passes (t : Text) : Prop := defect? (trim t) = none ∨ defect? (trim t) = some .empty

instance (t : Text) : Decidable (Passes t) := inferInstanceAs (Decidable (_ ∨ _))

/-! ## Blanks -/

/-- A blank neither closes a bracket nor ends a string. -/
theorem balanced_of_append_blank (hc : isBlank c = true) (h : Balanced (t ++ [c])) : Balanced t := by
  have hspecial := not_special_of_isBlank hc
  have hmark : ¬IsMark c := by
    rintro (rfl | rfl) <;> exact hspecial (by decide)
  obtain ⟨middle, hfront, hlast⟩ := after_append_eq_ok.mp (after_eq_ok_iff_balanced.mpr h)
  rw [after_singleton] at hlast
  -- a blank ends no string and closes no bracket, so that none is open in front of it
  cases reads_iff.mp hfront with
  | outside hopen =>
    rcases next_outside hlast with ⟨closer, hpair, -⟩ | ⟨opener, hpair, -, -⟩ | ⟨-, hstate⟩ |
      ⟨hstart, -⟩
    · rcases hpair with ⟨rfl, -⟩ | ⟨rfl, -⟩ <;> exact absurd (by decide) hspecial
    · rcases hpair with ⟨-, rfl⟩ | ⟨-, rfl⟩ <;> exact absurd (by decide) hspecial
    · cases hstate
      exact leavesOpen_nil_iff.mp hopen
    · exact absurd hstart hmark
  | @inside unclosed mark _ _ _ hopened _ =>
    have hquoting := quoting_of_next hlast
    have hother : c ≠ mark := fun heq => hmark (heq ▸ hopened)
    simp only [Quoting.next, hother, if_false] at hquoting
    split at hquoting <;> cases hquoting
  | escaped => cases quoting_of_next hlast

/-- Blanks around a text do not matter to its brackets. -/
theorem balanced_padded (hfront : front.all isBlank = true) (hbehind : behind.all isBlank = true) :
    Balanced (front ++ (t ++ behind)) ↔ Balanced t := by
  constructor
  · intro h
    have hstart := after_eq_ok_iff_balanced.mpr (balanced_of_blank hfront)
    obtain ⟨middle, hmiddle, hrest⟩ := after_append_eq_ok.mp (after_eq_ok_iff_balanced.mpr h)
    cases hstart.symm.trans hmiddle
    -- the blanks behind the text are taken off one by one, the last one first
    induction behind using List.reverseRecOn with
    | nil =>
      rw [List.append_nil] at hrest
      exact after_eq_ok_iff_balanced.mp hrest
    | append_singleton behind c ih =>
      rw [List.all_append, Bool.and_eq_true] at hbehind
      have hblank : isBlank c = true := by simpa using hbehind.2
      have hshorter : Balanced (t ++ behind) := by
        refine balanced_of_append_blank hblank ?_
        rw [List.append_assoc]
        exact after_eq_ok_iff_balanced.mp hrest
      have hafter := after_eq_ok_iff_balanced.mpr hshorter
      exact ih hbehind.1 ((balanced_of_blank hfront).append hshorter) hafter
  · intro h
    exact (balanced_of_blank hfront).append (h.append (balanced_of_blank hbehind))

theorem balanced_trim : Balanced (trim t) ↔ Balanced t := by
  obtain ⟨behind, hbehind, ht⟩ := trim_split t
  conv => rhs; rw [ht, List.append_assoc]
  exact (balanced_padded (all_leadingBlanks t) hbehind).symm

/-- A text passes the check just if it is balanced. -/
theorem passes_iff : Passes t ↔ Balanced t := by
  rw [← balanced_trim]
  unfold Passes
  by_cases hempty : trim t = []
  · rw [hempty]
    exact iff_of_true (.inr rfl) .nil
  · rw [defect?_eq_none_iff, defect?_eq_some_iff hempty]
    constructor
    · rintro (h | h)
      · exact h.2
      · cases h
    · intro h
      exact .inl ⟨hempty, h⟩

theorem passes_trim : Passes (trim t) ↔ Passes t := by
  rw [passes_iff, passes_iff, balanced_trim]

/-! ## Brackets further out -/

/-- The same brackets, with others open further out. -/
def beneath (state : Bracketing) (outer : List Char) : Bracketing :=
  { state with unclosed := state.unclosed ++ outer }

/-- What is open further out does not matter as long as nothing there is closed. -/
theorem next_beneath (h : start.next c = .ok state) (outer : List Char) :
    (beneath start outer).next c = .ok (beneath state outer) := by
  obtain ⟨quoting, unclosed⟩ := start
  by_cases houtside : quoting = .outside
  · subst houtside
    rcases next_outside h with ⟨closer, hpair, rfl⟩ | ⟨opener, hpair, hhead, rfl⟩ | ⟨hc, rfl⟩ |
      ⟨hmark, rfl⟩
    · exact next_opener hpair
    · obtain ⟨rest, rfl⟩ := List.head?_eq_some_iff.mp hhead
      show Bracketing.next c ⟨.outside, opener :: (rest ++ outer)⟩ = _
      rw [next_closer hpair]
      exact if_pos rfl
    · have hsame := after_balanced (Balanced.char hc .nil) (unclosed ++ outer)
      rwa [after_singleton] at hsame
    · exact next_mark hmark _
  · rw [next_quoted houtside] at h
    cases h
    exact next_quoted houtside

/-- Brackets that are open further out change nothing. -/
theorem after_beneath (h : start.after t = .ok state) (outer : List Char) :
    (beneath start outer).after t = .ok (beneath state outer) := by
  induction t generalizing start with
  | nil =>
    cases h
    rfl
  | cons c t ih =>
    obtain ⟨middle, hnext, hrest⟩ := after_cons_eq_ok.mp h
    exact after_cons_eq_ok.mpr ⟨_, next_beneath hnext outer, ih hrest⟩

end Expression

/-! ## Argument lists -/

namespace Arguments

open Expression

variable {plus : Int → Int → Int} {column : Int} {t inner : Text} {slots : List Slot}

/-- The entries of the inside of an argument list, which has none if there is nothing in it. -/
def pieces (inner : Text) : List Text := if inner = [] then [] else entries inner

/-- An inside is balanced just if each of its pieces is. -/
theorem balanced_iff_pieces : Balanced inner ↔ ∀ piece ∈ pieces inner, Balanced piece := by
  unfold pieces
  split
  · rename_i hempty
    rw [hempty]
    exact iff_of_true .nil fun piece hpiece => absurd hpiece List.not_mem_nil
  · exact balanced_iff_entries

/-- A list in brackets is split, whatever stands in them. -/
theorem exists_splitBy? (ht : trim t = '(' :: (inner ++ [')'])) :
    ∃ slots, splitBy? plus column t = some slots := by
  unfold splitBy?
  dsimp only
  rw [ht, inner?_brackets]
  exact ⟨_, rfl⟩

/-- The slots of a list are its pieces without their outer blanks. -/
theorem map_text_of_splitBy? (ht : trim t = '(' :: (inner ++ [')']))
    (h : splitBy? plus column t = some slots) :
    slots.map Slot.text = (pieces inner).map trim := by
  rcases trim_of_splitBy? h with ⟨hblank, -⟩ | ⟨other, hother, hcases⟩
  · rw [hblank] at ht
    cases ht
  · have hinner : other = inner := by
      rw [hother] at ht
      simpa using ht
    subst hinner
    unfold pieces
    rcases hcases with ⟨rfl, rfl⟩ | ⟨hne, rfl⟩
    · rfl
    · rw [if_neg hne, map_text_slotsBy]

/-- The inside of an argument list passes the check just if the text of each of its slots does. -/
theorem passes_iff_slots (ht : trim t = '(' :: (inner ++ [')']))
    (h : splitBy? plus column t = some slots) :
    Passes inner ↔ ∀ slot ∈ slots, Passes slot.text := by
  rw [← List.forall_mem_map (f := Slot.text) (P := Passes), map_text_of_splitBy? ht h,
    List.forall_mem_map, passes_iff, balanced_iff_pieces]
  exact forall₂_congr fun piece _ => by rw [passes_trim, passes_iff]

/-- The inside of an argument list between its two brackets, and its entries. -/
structure Encloses (inner : Text) (pieces : List Text) : Prop where
  /-- In front of the last bracket the first one is open. -/
  stays : ∀ front back, inner = front ++ back → ∃ quoting unclosed,
    Bracketing.after {} ('(' :: front) = .ok ⟨quoting, unclosed ++ ['(']⟩
  /-- The last bracket closes the first one. -/
  closes : Bracketing.after {} ('(' :: (inner ++ [')'])) = .ok {}
  joined : join [','] pieces = inner
  empty : inner = [] → pieces = []
  /-- Every comma between two entries stands outside brackets and strings. -/
  separates : ∀ front back, pieces = front ++ back → front ≠ [] → back ≠ [] →
    Balanced (join [','] front)
  /-- Every comma in an entry stands inside brackets or a string. -/
  undivided : ∀ piece ∈ pieces, Balanced piece ∧ Undivided piece

theorem balanced_join {texts : List Text} (h : ∀ text ∈ texts, Balanced text) :
    Balanced (join [','] texts) := by
  induction texts with
  | nil => exact .nil
  | cons first rest ih =>
    obtain ⟨hfirst, hrest⟩ := List.forall_mem_cons.mp h
    by_cases hempty : rest = []
    · rw [hempty, join_singleton]
      exact hfirst
    · rw [join_cons hempty]
      exact (hfirst.append (.char (by decide) .nil)).append (ih hrest)

/-- An inside that passes the check is enclosed. -/
theorem encloses_of_balanced (h : Balanced inner) : Encloses inner (pieces inner) := by
  have hafter := after_eq_ok_iff_balanced.mpr h
  have hpieces : ∀ piece ∈ pieces inner, Balanced piece ∧ Undivided piece := by
    intro piece hpiece
    have hbalanced := balanced_iff_pieces.mp h piece hpiece
    unfold pieces at hpiece
    split at hpiece
    · exact absurd hpiece List.not_mem_nil
    · exact ⟨hbalanced, undivided_of_mem_entries hpiece hbalanced⟩
  refine ⟨?_, ?_, ?_, fun hempty => if_pos hempty, ?_, hpieces⟩
  · -- in front of its end, the first bracket is still open beneath whatever else is
    intro front back heq
    rw [heq] at hafter
    obtain ⟨middle, hfront, -⟩ := after_append_eq_ok.mp hafter
    exact ⟨middle.quoting, middle.unclosed, after_beneath hfront ['(']⟩
  · exact after_balanced (.brackets (.inl ⟨rfl, rfl⟩) h .nil) []
  · unfold pieces
    split
    · rename_i hempty
      rw [hempty]
      rfl
    · exact join_entries inner
  · intro front back heq _ _
    refine balanced_join fun text htext => (hpieces text ?_).1
    rw [heq]
    exact List.mem_append_left back htext

end Arguments

end Stylesheet
