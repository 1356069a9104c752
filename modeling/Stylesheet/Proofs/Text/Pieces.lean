import Stylesheet.Text.Cut

/-!
# Pieces of joined texts

- `Text.pieces_append_cons`: a separator cuts a text into the pieces in front of it and those behind
  it.
- `Text.pieces_join`: joined pieces are cut apart again at the same places.
  `Text.length_pieces_join` says that they have to be without separators for this.
- `Text.unifyBreaks_append_cons`: breaks become line feeds on both sides of a line feed, unless a
  carriage return stands in front of it.
- `Text.unifyBreaks_of_not_mem`: a text without carriage returns stays as it is.
-/

namespace Stylesheet.Text

/-! ## Pieces -/

variable {separator : Char} {t front : Text}

theorem pieces_of_not_mem (h : separator ∉ t) : pieces separator t = [t] := by
  induction t with
  | nil => rfl
  | cons c t ih =>
    have hc : c ≠ separator := fun heq => h (heq ▸ List.mem_cons_self)
    have ht : separator ∉ t := fun hmem => h (List.mem_cons_of_mem c hmem)
    rw [pieces, if_neg hc, ih ht]
    rfl

theorem extendFirst_append {texts : List Text} (h : texts ≠ []) (c : Char) (others : List Text) :
    extendFirst c (texts ++ others) = extendFirst c texts ++ others := by
  cases texts with
  | nil => exact absurd rfl h
  | cons first rest => rfl

/-- A separator cuts a text into the pieces in front of it and those behind it. -/
theorem pieces_append_cons (separator : Char) (front t : Text) :
    pieces separator (front ++ separator :: t) = pieces separator front ++ pieces separator t := by
  induction front with
  | nil =>
    show (if separator = separator then [] :: pieces separator t else _) = _
    rw [if_pos rfl]
    rfl
  | cons c front ih =>
    rw [List.cons_append, pieces, pieces, ih]
    split
    · rfl
    · exact extendFirst_append (pieces_ne_nil separator front) c _

/-- The first separator ends the first piece. -/
theorem pieces_append (h : separator ∉ front) (t : Text) :
    pieces separator (front ++ separator :: t) = front :: pieces separator t := by
  rw [pieces_append_cons, pieces_of_not_mem h]
  rfl

/-- No piece holds the separator. -/
theorem not_mem_of_mem_pieces {piece : Text} (h : piece ∈ pieces separator t) :
    separator ∉ piece := by
  induction t generalizing piece with
  | nil =>
    rw [List.mem_singleton.mp h]
    exact List.not_mem_nil
  | cons c t ih =>
    rw [pieces] at h
    split at h
    · rcases List.mem_cons.mp h with rfl | h
      · exact List.not_mem_nil
      · exact ih h
    · rename_i hc
      -- a character that is no separator extends the first piece, of which there always is one
      cases hpieces : pieces separator t with
      | nil => exact absurd hpieces (pieces_ne_nil separator t)
      | cons first rest =>
        rw [hpieces] at h ih
        rcases List.mem_cons.mp h with rfl | h
        · intro hmem
          rcases List.mem_cons.mp hmem with heq | hmem
          · exact hc heq.symm
          · exact ih List.mem_cons_self hmem
        · exact ih (List.mem_cons_of_mem _ h)

theorem join_singleton (between t : Text) : join between [t] = t := by
  simp [join]

theorem join_cons {between first : Text} {rest : List Text} (h : rest ≠ []) :
    join between (first :: rest) = first ++ between ++ join between rest := by
  cases rest with
  | nil => exact absurd rfl h
  | cons second rest => simp [join]

theorem isPrefix_join (between first : Text) (rest : List Text) :
    first <+: join between (first :: rest) := by
  cases rest with
  | nil => exact ⟨[], by rw [List.append_nil, join_singleton]⟩
  | cons second rest =>
    rw [join_cons (List.cons_ne_nil second rest), List.append_assoc]
    exact List.prefix_append _ _

/-- A character of joined texts stands in one of them or between two. -/
theorem mem_join {between : Text} {texts : List Text} {c : Char} (h : c ∈ join between texts) :
    c ∈ between ∨ ∃ text ∈ texts, c ∈ text := by
  induction texts with
  | nil => exact absurd h List.not_mem_nil
  | cons first rest ih =>
    cases rest with
    | nil =>
      rw [join_singleton] at h
      exact .inr ⟨first, List.mem_cons_self, h⟩
    | cons second rest =>
      rw [join_cons (List.cons_ne_nil second rest), List.append_assoc] at h
      rcases List.mem_append.mp h with h | h
      · exact .inr ⟨first, List.mem_cons_self, h⟩
      · rcases List.mem_append.mp h with h | h
        · exact .inl h
        · exact (ih h).imp_right fun ⟨text, htext, hc⟩ => ⟨text, List.mem_cons_of_mem first htext, hc⟩

/-- Joined pieces are cut apart again at the same places. -/
theorem pieces_join {texts : List Text} (hne : texts ≠ []) (h : ∀ text ∈ texts, separator ∉ text) :
    pieces separator (join [separator] texts) = texts := by
  induction texts with
  | nil => exact absurd rfl hne
  | cons first rest ih =>
    have hfirst : separator ∉ first := h first List.mem_cons_self
    cases rest with
    | nil =>
      show pieces separator (first ++ []) = [first]
      rw [List.append_nil, pieces_of_not_mem hfirst]
    | cons second rest =>
      have hrest := ih (List.cons_ne_nil _ _) fun text hmem => h text (List.mem_cons_of_mem _ hmem)
      rw [join_cons (List.cons_ne_nil _ _), List.append_assoc]
      show pieces separator (first ++ separator :: join [separator] (second :: rest)) = _
      rw [pieces_append hfirst, hrest]

/-- There is one piece more than there are separators. -/
theorem length_pieces (separator : Char) (t : Text) :
    (pieces separator t).length = t.count separator + 1 := by
  induction t with
  | nil => rfl
  | cons c t ih =>
    by_cases hc : c = separator
    · rw [pieces, if_pos hc, List.length_cons, ih, hc, List.count_cons_self]
    · rw [pieces, if_neg hc, List.count_cons_of_ne hc, ← ih]
      cases hpieces : pieces separator t with
      | nil => exact absurd hpieces (pieces_ne_nil separator t)
      | cons first rest => rfl

/-- Between joined texts stand as many separators as there are texts, less one. -/
theorem count_join {texts : List Text} (hne : texts ≠ []) :
    (join [separator] texts).count separator + 1 = texts.length + texts.flatten.count separator := by
  induction texts with
  | nil => exact absurd rfl hne
  | cons first rest ih =>
    cases rest with
    | nil => simp [join, Nat.add_comm]
    | cons second rest =>
      have hrest := ih (List.cons_ne_nil second rest)
      rw [join_cons (List.cons_ne_nil second rest), List.count_append, List.count_append,
        List.count_singleton_self, List.flatten_cons, List.count_append, List.length_cons]
      omega

/-- Joined texts are as many as their pieces just if none of them holds a separator. -/
theorem length_pieces_join {texts : List Text} (hne : texts ≠ []) :
    (pieces separator (join [separator] texts)).length = texts.length ↔
      ∀ text ∈ texts, separator ∉ text := by
  rw [length_pieces, count_join hne, Nat.add_eq_left, List.count_eq_zero]
  simp

/-- A longer text between texts is a separator with what follows it in front of the next text. -/
theorem join_cons_map (separator : Char) (gap first : Text) (rest : List Text) :
    join (separator :: gap) (first :: rest) = join [separator] (first :: rest.map (gap ++ ·)) := by
  induction rest generalizing first with
  | nil => rfl
  | cons second rest ih =>
    rw [join_cons (List.cons_ne_nil second rest), ih, List.map_cons,
      join_cons (List.cons_ne_nil (gap ++ second) (rest.map (gap ++ ·)))]
    cases rest <;> simp [join]

/-- The last piece of a text ends as the text does. -/
theorem pieces_append_eq (h : separator ∉ t) (front : Text) :
    ∃ texts last, pieces separator (front ++ t) = texts ++ [last ++ t] := by
  induction front with
  | nil => exact ⟨[], [], pieces_of_not_mem h⟩
  | cons c front ih =>
    obtain ⟨texts, last, hpieces⟩ := ih
    rw [List.cons_append, pieces, hpieces]
    split
    · exact ⟨[] :: texts, last, rfl⟩
    · cases texts with
      | nil => exact ⟨[], c :: last, rfl⟩
      | cons first rest => exact ⟨(c :: first) :: rest, last, rfl⟩

/-- Joined texts end in the last one. -/
theorem suffix_join (between last : Text) (texts : List Text) :
    last <:+ join between (texts ++ [last]) := by
  induction texts with
  | nil => exact ⟨[], (List.append_nil _).symm⟩
  | cons first rest ih =>
    obtain ⟨front, hfront⟩ := ih
    refine ⟨first ++ between ++ front, ?_⟩
    cases rest <;> simp_all [join]

/-! ## Line breaks -/

/-- A character that is no carriage return stays. -/
theorem unifyBreaks_cons {c : Char} (hc : c ≠ '\r') (t : Text) :
    unifyBreaks (c :: t) = c :: unifyBreaks t := by
  rw [unifyBreaks]
  · rw [if_neg hc]
  · intro rest heq
    exact absurd heq hc

/-- A carriage return with no line feed behind it becomes one. -/
theorem unifyBreaks_return {t : Text} (h : t.head? ≠ some '\n') :
    unifyBreaks ('\r' :: t) = '\n' :: unifyBreaks t := by
  rw [unifyBreaks]
  · rw [if_pos rfl]
  · rintro rest - rfl
    exact h rfl

theorem unifyBreaks_of_not_mem (h : '\r' ∉ t) : unifyBreaks t = t := by
  induction t with
  | nil => rfl
  | cons c t ih =>
    have hc : c ≠ '\r' := fun heq => h (heq ▸ List.mem_cons_self)
    rw [unifyBreaks_cons hc, ih fun hmem => h (List.mem_cons_of_mem c hmem)]

/-- A text without carriage returns in front stays as it is. -/
theorem unifyBreaks_append (h : '\r' ∉ front) (t : Text) :
    unifyBreaks (front ++ t) = front ++ unifyBreaks t := by
  induction front with
  | nil => rfl
  | cons c front ih =>
    have hc : c ≠ '\r' := fun heq => h (heq ▸ List.mem_cons_self)
    rw [List.cons_append, unifyBreaks_cons hc, ih fun hmem => h (List.mem_cons_of_mem c hmem)]
    rfl

/-- The breaks on the two sides of a line feed have nothing to do with each other, unless a carriage
return stands in front of it. -/
theorem unifyBreaks_append_cons (h : front.getLast? ≠ some '\r') (t : Text) :
    unifyBreaks (front ++ '\n' :: t) = unifyBreaks front ++ '\n' :: unifyBreaks t := by
  fun_induction unifyBreaks front with
  | case1 rest ih =>
    rw [List.cons_append, List.cons_append, unifyBreaks, ih fun hlast => h ?_]
    · rfl
    · cases rest with
      | nil => exact absurd hlast (by simp)
      | cons c rest => simpa using hlast
  | case2 c rest hnot ih =>
    have hrest : rest.getLast? ≠ some '\r' := by
      intro hlast
      cases rest with
      | nil => exact absurd hlast (by simp)
      | cons d rest => exact h (by simpa using hlast)
    rw [List.cons_append, List.cons_append, ← ih hrest]
    by_cases hc : c = '\r'
    · -- a carriage return at the very end would take in the line feed, and that is excluded
      subst hc
      cases rest with
      | nil => exact absurd rfl h
      | cons d rest =>
        have hd : d ≠ '\n' := fun heq => hnot rest rfl (heq ▸ rfl)
        rw [if_pos rfl, unifyBreaks_return]
        simpa using hd
    · rw [if_neg hc, unifyBreaks_cons hc]
  | case3 => rw [List.nil_append, unifyBreaks_cons (by decide)]; rfl

end Stylesheet.Text
