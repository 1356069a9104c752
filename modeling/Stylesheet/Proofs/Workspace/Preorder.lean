import Mathlib.Logic.Relation

/-!
# Depth-first preorder

A graph whose vertices list their successors is gone through depth first: a vertex comes before all
that is reached from it, and this before the next vertex.

- `Preorder next seen agenda order`: `order` lists the vertices found from `agenda` that have not
  been seen, in this order.
- `Preorder.unique`: there is only one such list.
- `Preorder.mem_iff_reaches`: from nothing seen, it lists just what can be reached.
- `Preorder.nodup`: it lists each vertex once.
-/

namespace Stylesheet

variable {α : Type}

/-- The vertices found from an agenda, in depth-first preorder, without those seen before. -/
inductive Preorder (next : α → List α) : List α → List α → List α → Prop where
  | done {seen : List α} : Preorder next seen [] []
  | skip {seen agenda order : List α} {a : α} (ha : a ∈ seen)
    (hrest : Preorder next seen agenda order) : Preorder next seen (a :: agenda) order
  | enter {seen agenda inner order : List α} {a : α} (ha : a ∉ seen)
    (hinner : Preorder next (seen ++ [a]) (next a) inner)
    (hrest : Preorder next (seen ++ a :: inner) agenda order) :
    Preorder next seen (a :: agenda) (a :: inner ++ order)

/-- From a vertex another one can be reached. -/
def Reaches (next : α → List α) : α → α → Prop := Relation.ReflTransGen fun a b => b ∈ next a

/-- What can be reached depends only on the successors of what can be reached. -/
theorem reaches_congr {next next' : α → List α} {start a : α}
    (h : ∀ b, Reaches next start b → next b = next' b) :
    Reaches next start a ↔ Reaches next' start a := by
  constructor
  · intro hreaches
    induction hreaches with
    | refl => exact .refl
    | tail hfront hstep ih =>
      rw [h _ hfront] at hstep
      exact ih.tail hstep
  · intro hreaches
    induction hreaches with
    | refl => exact .refl
    | tail _ hstep ih =>
      rw [← h _ ih] at hstep
      exact ih.tail hstep

namespace Preorder

variable {next : α → List α} {seen agenda order : List α} {a b : α}

theorem unique {other : List α} (h : Preorder next seen agenda order)
    (h' : Preorder next seen agenda other) : order = other := by
  induction h generalizing other with
  | done =>
    cases h'
    rfl
  | skip ha _ ih =>
    cases h' with
    | skip _ hrest => exact ih hrest
    | enter hnew => exact absurd ha hnew
  | enter ha _ _ ihInner ihRest =>
    cases h' with
    | skip hseen => exact absurd hseen ha
    | enter _ hinner hrest =>
      cases ihInner hinner
      rw [ihRest hrest]

/-- Every vertex of the agenda is found, unless it has been seen. -/
theorem mem_of_mem_agenda (h : Preorder next seen agenda order) (ha : a ∈ agenda) :
    a ∈ seen ∨ a ∈ order := by
  induction h with
  | done => exact absurd ha List.not_mem_nil
  | skip hseen _ ih =>
    rcases List.mem_cons.mp ha with rfl | ha
    · exact .inl hseen
    · exact ih ha
  | enter _ _ _ _ ih =>
    rcases List.mem_cons.mp ha with rfl | ha
    · exact .inr (List.mem_append_left _ List.mem_cons_self)
    · rcases ih ha with hseen | horder
      · rcases List.mem_append.mp hseen with hseen | hinner
        · exact .inl hseen
        · exact .inr (List.mem_append_left _ hinner)
      · exact .inr (List.mem_append_right _ horder)

/-- Every successor of a vertex that is found is found too, unless it has been seen. -/
theorem mem_of_mem_next (h : Preorder next seen agenda order) (ha : a ∈ order) (hb : b ∈ next a) :
    b ∈ seen ∨ b ∈ order := by
  induction h with
  | done => exact absurd ha List.not_mem_nil
  | skip _ _ ih => exact ih ha
  | @enter seen agenda inner order top _ hinner _ ihInner ihRest =>
    -- what the inner run has seen is the vertex itself or was seen before
    have hseen : b ∈ seen ++ [top] ∨ b ∈ inner → b ∈ seen ∨ b ∈ top :: inner ++ order := by
      rintro (hb | hb)
      · rcases List.mem_append.mp hb with hb | hb
        · exact .inl hb
        · rw [List.mem_singleton.mp hb]
          exact .inr (List.mem_append_left _ List.mem_cons_self)
      · exact .inr (List.mem_append_left _ (List.mem_cons_of_mem _ hb))
    rcases List.mem_append.mp ha with ha | ha
    · rcases List.mem_cons.mp ha with rfl | ha
      · exact hseen (hinner.mem_of_mem_agenda hb)
      · exact hseen (ihInner ha)
    · rcases ihRest ha with hb | hb
      · rcases List.mem_append.mp hb with hb | hb
        · exact .inl hb
        · exact .inr (List.mem_append_left _ hb)
      · exact .inr (List.mem_append_right _ hb)

/-- Every vertex that is found can be reached from the agenda. -/
theorem exists_reaches (h : Preorder next seen agenda order) (ha : a ∈ order) :
    ∃ start ∈ agenda, Reaches next start a := by
  induction h with
  | done => exact absurd ha List.not_mem_nil
  | skip _ _ ih =>
    obtain ⟨start, hstart, hreaches⟩ := ih ha
    exact ⟨start, List.mem_cons_of_mem _ hstart, hreaches⟩
  | enter _ _ _ ihInner ihRest =>
    rcases List.mem_append.mp ha with ha | ha
    · refine ⟨_, List.mem_cons_self, ?_⟩
      rcases List.mem_cons.mp ha with rfl | ha
      · exact .refl
      · obtain ⟨start, hstart, hreaches⟩ := ihInner ha
        exact .head hstart hreaches
    · obtain ⟨start, hstart, hreaches⟩ := ihRest ha
      exact ⟨start, List.mem_cons_of_mem _ hstart, hreaches⟩

/-- No vertex is found that has been seen, and none is found twice. -/
theorem nodup_and_disjoint (h : Preorder next seen agenda order) :
    order.Nodup ∧ ∀ a ∈ order, a ∉ seen := by
  induction h with
  | done => exact ⟨.nil, fun a ha => absurd ha List.not_mem_nil⟩
  | skip _ _ ih => exact ih
  | @enter seen agenda inner order top hnew _ _ ihInner ihRest =>
    obtain ⟨hnodupInner, hdisjointInner⟩ := ihInner
    obtain ⟨hnodupRest, hdisjointRest⟩ := ihRest
    have htop : (top :: inner).Nodup := by
      refine List.nodup_cons.mpr ⟨fun hmem => ?_, hnodupInner⟩
      exact hdisjointInner top hmem (List.mem_append_right _ List.mem_cons_self)
    refine ⟨List.nodup_append.mpr ⟨htop, hnodupRest, fun a ha b hb heq => ?_⟩, fun a ha hseen => ?_⟩
    · rw [heq] at ha
      exact hdisjointRest b hb (List.mem_append_right _ ha)
    · rcases List.mem_append.mp ha with ha | ha
      · rcases List.mem_cons.mp ha with rfl | ha
        · exact hnew hseen
        · exact hdisjointInner a ha (List.mem_append_left _ hseen)
      · exact hdisjointRest a ha (List.mem_append_left _ hseen)

/-- No vertex is listed twice. -/
theorem nodup (h : Preorder next seen agenda order) : order.Nodup := h.nodup_and_disjoint.1

/-- From nothing seen, the vertices found are just those that can be reached. -/
theorem mem_iff_reaches {start : α} (h : Preorder next [] [start] order) :
    a ∈ order ↔ Reaches next start a := by
  constructor
  · intro ha
    obtain ⟨first, hfirst, hreaches⟩ := h.exists_reaches ha
    rw [List.mem_singleton.mp hfirst] at hreaches
    exact hreaches
  · intro hreaches
    induction hreaches with
    | refl => simpa using h.mem_of_mem_agenda List.mem_cons_self
    | tail _ hstep ih => simpa using h.mem_of_mem_next ih hstep

/-- The list starts with the start. -/
theorem head?_eq {start : α} (h : Preorder next [] [start] order) : order.head? = some start := by
  cases h with
  | skip hseen => exact absurd hseen List.not_mem_nil
  | enter => rfl

end Preorder

end Stylesheet
