import Stylesheet.Construct.Mixin
import Stylesheet.Proofs.Text.Slices

/-!
# The head of a mixin

Between the sign of a mixin and its argument list stands the name of the mixin, with blanks around
it or without. Something has to stand there, but blanks will do.

- `Mixin.Cut`: a line cut behind its sign and in front of its first bracket, if it has one.
- `Mixin.Listed`: what stands from the bracket on is an argument list.
- `Cut.head?_eq_some_iff`: which lines have a head, and what the name and the arguments are then.
-/

namespace Stylesheet

namespace Text

variable {t : Text}

theorem mem_of_mem_trim {c : Char} (h : c ∈ trim t) : c ∈ t := by
  obtain ⟨behind, -, hsplit⟩ := trim_split t
  rw [hsplit]
  exact List.mem_append_left _ (List.mem_append_right _ h)

/-- Nothing is left of a text just if there is nothing but blanks in it. -/
theorem trim_eq_nil_iff : trim t = [] ↔ t.all isBlank = true := by
  refine ⟨fun h => ?_, trim_of_all⟩
  obtain ⟨behind, hbehind, hsplit⟩ := trim_split t
  rw [h, List.append_nil] at hsplit
  rw [hsplit, List.all_append, all_leadingBlanks, hbehind]
  rfl

end Text

namespace Mixin

open Text

variable {sign : Char} {line name between list rest : Text} {slots : List Slot}

/-! ## Cutting a line -/

/-- A line that starts with a sign, cut behind the sign and in front of the first bracket. Without a
bracket nothing is left for an argument list. -/
structure Cut (sign : Char) (line between list : Text) : Prop where
  eq : line = sign :: (between ++ list)
  unopened : '(' ∉ between
  opened : ∀ c ∈ list.head?, c = '('

/-- What stands from the bracket on is an argument list with these entries, and no line ends in
it. -/
structure Listed (sign : Char) (between list : Text) (slots : List Slot) : Prop where
  unbroken : list.any isLineBreak = false
  split : Arguments.split? (units (sign :: between)) list = some slots

/-- In front of a bracket, or of nothing, a text without brackets ends. -/
theorem parts_of_unopened (hunopened : '(' ∉ between) (hopened : ∀ c ∈ list.head?, c = '(') :
    (between ++ list).takeWhile (· != '(') = between ∧
      (between ++ list).dropWhile (· != '(') = list := by
  refine cut_behind (List.all_eq_true.mpr fun c hc => ?_) fun c hc => ?_
  · rw [bne_iff_ne]
    exact fun heq => hunopened (heq ▸ hc)
  · rw [hopened c hc]
    rfl

theorem exists_cut (h : line.head? = some sign) : ∃ between list, Cut sign line between list := by
  obtain ⟨t, rfl⟩ := List.head?_eq_some_iff.mp h
  refine ⟨t.takeWhile (· != '('), t.dropWhile (· != '('), ?_, ?_, ?_⟩
  · rw [List.takeWhile_append_dropWhile]
  · exact fun hmem => absurd (List.mem_takeWhile_imp hmem) (by decide)
  · intro c hc
    have hfirst := List.head?_dropWhile_not (· != '(') t
    rw [Option.mem_def.mp hc] at hfirst
    simpa using hfirst

theorem Cut.of_bracket (h : line = sign :: (between ++ '(' :: rest)) (hunopened : '(' ∉ between) :
    Cut sign line between ('(' :: rest) :=
  ⟨h, hunopened, fun _ hc => (Option.some.inj hc).symm⟩

/-! ## Names -/

/-- Whichever blanks are cut off in front, a name that is found is all of what stands in front of
the bracket, up to blanks. -/
theorem trim_of_startsName {gap behind : Text} (hunopened : '(' ∉ between)
    (hopened : ∀ c ∈ list.head?, c = '(') (hcut : gap ++ behind = between ++ list)
    (hgap : gap.all isBlank = true) (hname : startsName behind = true) :
    between ≠ [] ∧ trim (behind.takeWhile (· != '(')) = trim between ∧
      behind.dropWhile (· != '(') = list := by
  obtain ⟨htake, hdrop⟩ := parts_of_unopened hunopened hopened
  have hblank : ∀ c ∈ gap, (c != '(') = true := by
    intro c hc
    rw [bne_iff_ne]
    rintro rfl
    exact absurd (List.all_eq_true.mp hgap _ hc) (by decide)
  rw [← hcut, List.takeWhile_append_of_pos hblank] at htake
  rw [← hcut, List.dropWhile_append_of_pos hblank] at hdrop
  refine ⟨?_, ?_, hdrop⟩
  · cases behind with
    | nil => cases hname
    | cons c behind =>
      rw [← htake, List.takeWhile_cons_of_pos (p := (· != '(')) hname]
      exact List.append_ne_nil_of_right_ne_nil gap (List.cons_ne_nil c _)
  · have htrim : trim (gap ++ behind.takeWhile (· != '(') ++ []) = _ := trim_padded hgap rfl _
    rw [List.append_nil, htake] at htrim
    exact htrim.symm

/-- A head that is cut has something in front of its bracket, and nothing but blanks is left out of
its name. -/
theorem of_cut? (hunopened : '(' ∉ between) (hopened : ∀ c ∈ list.head?, c = '(')
    (h : cut? (between ++ list) = some (name, rest)) :
    between ≠ [] ∧ list.any isLineBreak = false ∧ trim name = trim between ∧ rest = list := by
  unfold cut? at h
  obtain ⟨⟨gap, behind⟩, hfound, h⟩ := Option.bind_eq_some_iff.mp h
  have hmem := List.mem_of_find?_eq_some hfound
  have hname : startsName behind = true := by simpa using List.find?_some hfound
  obtain ⟨hne, htrim, hdrop⟩ := trim_of_startsName hunopened hopened (append_of_mem_blankCuts hmem)
    (all_of_mem_blankCuts hmem) hname
  dsimp only at h hdrop
  rw [hdrop] at h
  split at h
  · cases h
  · rename_i hbreak
    cases h
    exact ⟨hne, Bool.eq_false_iff.mpr hbreak, htrim, rfl⟩

/-- Whatever stands in front of the bracket, be it blanks, names something. -/
theorem exists_cut? (hunopened : '(' ∉ between) (hopened : ∀ c ∈ list.head?, c = '(')
    (hne : between ≠ []) (hbreak : list.any isLineBreak = false) :
    ∃ name, cut? (between ++ list) = some (name, list) := by
  obtain ⟨c, more, rfl⟩ := List.exists_cons_of_ne_nil hne
  -- if no blanks are cut off, the name starts at once
  have hstarts : startsName (c :: more ++ list) = true :=
    bne_iff_ne.mpr (List.ne_of_not_mem_cons hunopened).symm
  have hfound : ((blankCuts 0 (c :: more ++ list)).find? fun parts => startsName parts.2).isSome :=
    List.find?_isSome.mpr ⟨_, nil_mem_blankCuts _, hstarts⟩
  obtain ⟨⟨gap, behind⟩, hfound⟩ := Option.isSome_iff_exists.mp hfound
  have hmem := List.mem_of_find?_eq_some hfound
  have hname : startsName behind = true := by simpa using List.find?_some hfound
  obtain ⟨-, -, hdrop⟩ := trim_of_startsName hunopened hopened (append_of_mem_blankCuts hmem)
    (all_of_mem_blankCuts hmem) hname
  refine ⟨behind.takeWhile (· != '('), ?_⟩
  dsimp only at hdrop
  unfold cut?
  simp only [hfound, Option.bind_eq_bind, Option.bind_some, hdrop, hbreak]
  rfl

theorem head?_cons (sign : Char) (t : Text) :
    head? sign (sign :: t) = (cut? t).bind fun parts =>
      (Arguments.split? ((units (sign :: t) : Int) - units parts.2) parts.2).map fun slots =>
        (trim parts.1, slots) := by
  unfold head?
  dsimp only
  rw [if_neg (not_not_intro rfl)]
  cases cut? t with
  | none => rfl
  | some parts =>
    show (Arguments.split? _ parts.2).bind _ = (Arguments.split? _ parts.2).map _
    rw [Option.map_eq_bind]
    rfl

/-- A line has a head if anything stands in front of its bracket and an argument list behind. Its
name is what is left of the one without the blanks around it. -/
theorem Cut.head?_eq_some_iff (h : Cut sign line between list) :
    head? sign line = some (name, slots) ↔
      between ≠ [] ∧ Listed sign between list slots ∧ name = trim between := by
  have hcolumn : (units line : Int) - units list = units (sign :: between) := by
    rw [h.eq, units_cons, units_append, units_cons]
    omega
  rw [h.eq] at hcolumn ⊢
  rw [head?_cons, Option.bind_eq_some_iff]
  simp only [Option.map_eq_some_iff, Prod.mk.injEq]
  constructor
  · rintro ⟨⟨word, rest⟩, hcut, _, hsplit, rfl, rfl⟩
    obtain ⟨hne, hbreak, htrim, rfl⟩ := of_cut? h.unopened h.opened hcut
    rw [hcolumn] at hsplit
    exact ⟨hne, ⟨hbreak, hsplit⟩, htrim⟩
  · rintro ⟨hne, ⟨hbreak, hsplit⟩, rfl⟩
    rw [← hcolumn] at hsplit
    obtain ⟨word, hcut⟩ := exists_cut? h.unopened h.opened hne hbreak
    obtain ⟨-, -, htrim, -⟩ := of_cut? h.unopened h.opened hcut
    exact ⟨(word, list), hcut, slots, hsplit, htrim, rfl⟩

end Mixin

end Stylesheet
