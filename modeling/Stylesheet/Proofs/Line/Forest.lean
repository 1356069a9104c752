import Stylesheet.Proofs.Line.Concatenation

/-!
# Forests of lines

What the depths of lines say about their forest. Depths are numbers of 53 significant bits, so one
more than a depth is the next number above it at the most (`Number.plus_one_le`).

- `Line.Stepped`: each line beneath a line is one level deeper than the one it is nested in.
- `Line.descends_forest`: no tree is deeper than one in front of it.
- `Line.stepped_forest`: if no line is nested by more than one level at once, the trees are stepped.
- `Line.forest_forestPreorder`: stepped trees of the same depth are the forest of their lines, so no
  other trees have the same lines.
-/

namespace Stylesheet

/-! ## One level -/

namespace Number

variable {a b : Int}

theorem le_plus_one (ha : round a = a) : a ≤ plus a 1 := by
  have hmono : round a ≤ round (a + 1) := round_mono (by omega)
  rwa [ha] at hmono

/-- Between a number and the sum of it and one there is no number. -/
theorem plus_one_le (hb : round b = b) (h : a < b) : plus a 1 ≤ b := by
  have hmono : round (a + 1) ≤ round b := round_mono (by omega)
  rwa [hb] at hmono

end Number

namespace Line

/-- Beneath the line, each line is one level deeper than the one it is nested in. -/
inductive Stepped : Line → Prop where
  | intro {line : Line}
    (hlevel : ∀ child ∈ line.children,
      line.depth < child.depth ∧ child.depth = Number.plus line.depth 1)
    (hbelow : ∀ child ∈ line.children, Stepped child) : Stepped line

variable {line : Line} {lines trees : List Line}

/-! ## Grafting -/

/-- A line without children takes the deeper trees in front. -/
theorem graft_of_bare (h : line.children = []) (trees : List Line) :
    graft line trees =
      { line with children := trees.takeWhile fun tree => line.depth < tree.depth } ::
        trees.dropWhile fun tree => line.depth < tree.depth := by
  have hcut := List.takeWhile_append_dropWhile (p := fun tree => decide (line.depth < tree.depth))
    (l := trees)
  unfold graft
  split
  · rename_i hnone
    rw [hnone, List.nil_append] at hcut
    rw [hnone, hcut, bare_eq h]
  · rfl

/-- A line takes nothing if the tree in front is no deeper. -/
theorem graft_of_le (h : ∀ first ∈ trees.head?, first.depth ≤ line.depth) :
    graft line trees = line :: trees := by
  simpa [graft] using graft_append h []

theorem forest_cons (line : Line) (lines : List Line) :
    forest (line :: lines) = graft line (forest lines) := rfl

/-- Trees of which none is deeper than one in front of it. -/
def Descends (trees : List Line) : Prop :=
  trees.Pairwise fun upper lower => lower.depth ≤ upper.depth

/-- Behind the deeper trees in front no tree is deeper. -/
theorem Descends.le_of_mem_dropWhile (h : Descends trees) {depth : Int} :
    ∀ tree ∈ trees.dropWhile (fun tree => depth < tree.depth), tree.depth ≤ depth := by
  induction trees with
  | nil => exact fun tree htree => absurd htree List.not_mem_nil
  | cons first rest ih =>
    obtain ⟨hfirst, hrest⟩ := List.pairwise_cons.mp h
    by_cases hdeeper : depth < first.depth
    · simpa [hdeeper] using ih hrest
    · intro tree htree
      simp only [hdeeper, decide_false, Bool.false_eq_true, not_false_eq_true,
        List.dropWhile_cons_of_neg] at htree
      rcases List.mem_cons.mp htree with rfl | htree
      · omega
      · have hle := hfirst tree htree
        omega

/-- The roots of a forest get less and less deep. -/
theorem descends_forest (h : ∀ line ∈ lines, line.children = []) : Descends (forest lines) := by
  induction lines with
  | nil => exact .nil
  | cons line lines ih =>
    obtain ⟨hline, hlines⟩ := List.forall_mem_cons.mp h
    have hbehind := ih hlines
    rw [forest_cons, graft_of_bare hline]
    refine List.pairwise_cons.mpr ⟨hbehind.le_of_mem_dropWhile, ?_⟩
    exact List.Pairwise.sublist (List.dropWhile_sublist _) hbehind

/-! ## The trees of a forest -/

theorem mem_forestPreorder {tree : Line} (h : tree ∈ trees) :
    { tree with children := [] } ∈ forestPreorder trees := by
  induction trees with
  | nil => exact absurd h List.not_mem_nil
  | cons first rest ih =>
    rw [forestPreorder, preorder_eq]
    rcases List.mem_cons.mp h with rfl | h
    · exact List.mem_append_left _ List.mem_cons_self
    · exact List.mem_append_right _ (ih h)

/-- Every tree of a forest has the depth of a line. -/
theorem exists_of_mem_forest (hbare : ∀ line ∈ lines, line.children = []) {tree : Line}
    (h : tree ∈ forest lines) : ∃ line ∈ lines, line.depth = tree.depth := by
  refine ⟨{ tree with children := [] }, ?_, rfl⟩
  have hmem := mem_forestPreorder h
  rwa [forestPreorder_forest hbare] at hmem

/-- No tree of a forest is deeper than the first line. -/
theorem le_of_mem_forest (hbare : ∀ line ∈ lines, line.children = []) {first tree : Line}
    (hfirst : lines.head? = some first) (h : tree ∈ forest lines) : tree.depth ≤ first.depth := by
  have hhead := head?_forest lines
  have hdescends := descends_forest hbare
  rw [hfirst] at hhead
  cases hforest : forest lines with
  | nil =>
    rw [hforest] at h
    exact absurd h List.not_mem_nil
  | cons root rest =>
    rw [hforest] at hhead hdescends h
    have hroot : root.depth = first.depth := by simpa using hhead
    rcases List.mem_cons.mp h with rfl | h
    · omega
    · have hle := (List.pairwise_cons.mp hdescends).1 tree h
      omega

/-- If no line is less deep than the first one, all trees have the depth of this one. -/
theorem depth_of_mem_forest (hbare : ∀ line ∈ lines, line.children = []) {first tree : Line}
    (hfirst : lines.head? = some first) (hlevel : ∀ line ∈ lines, first.depth ≤ line.depth)
    (h : tree ∈ forest lines) : tree.depth = first.depth := by
  obtain ⟨line, hline, hdepth⟩ := exists_of_mem_forest hbare h
  have hle := le_of_mem_forest hbare hfirst h
  have hge := hlevel line hline
  omega

theorem overIndented?_cons_eq_none (h : overIndented? (line :: lines) = none) :
    (∀ first ∈ lines.head?, first.depth ≤ Number.plus line.depth 1) ∧
      overIndented? lines = none := by
  cases lines with
  | nil => exact ⟨by simp, rfl⟩
  | cons first rest =>
    rw [overIndented?] at h
    split at h
    · cases h
    · rename_i hjump
      refine ⟨?_, h⟩
      rintro _ ⟨⟩
      omega

/-- Lines of which none is nested by more than one level at once have stepped trees. -/
theorem stepped_forest (hbare : ∀ line ∈ lines, line.children = [])
    (hround : ∀ line ∈ lines, Number.round line.depth = line.depth)
    (h : overIndented? lines = none) : ∀ root ∈ forest lines, Stepped root := by
  induction lines with
  | nil => exact fun root hroot => absurd hroot List.not_mem_nil
  | cons line lines ih =>
    obtain ⟨hline, hbelow⟩ := List.forall_mem_cons.mp hbare
    obtain ⟨-, hnumbers⟩ := List.forall_mem_cons.mp hround
    obtain ⟨hfirst, hnone⟩ := overIndented?_cons_eq_none h
    have hstepped := ih hbelow hnumbers hnone
    rw [forest_cons, graft_of_bare hline]
    intro root hroot
    rcases List.mem_cons.mp hroot with rfl | hroot
    · refine .intro (fun child hchild => ?_) fun child hchild =>
        hstepped child ((List.takeWhile_sublist _).subset hchild)
      have hdeeper : line.depth < child.depth := by simpa using List.mem_takeWhile_imp hchild
      have hmem : child ∈ forest lines := (List.takeWhile_sublist _).subset hchild
      refine ⟨hdeeper, ?_⟩
      -- a child is no deeper than the next line, and that is one level deeper at the most
      obtain ⟨own, hown, hdepth⟩ := exists_of_mem_forest hbelow hmem
      have hle : Number.plus line.depth 1 ≤ child.depth :=
        Number.plus_one_le (hdepth ▸ hnumbers own hown) hdeeper
      cases lines with
      | nil => exact absurd hmem List.not_mem_nil
      | cons first rest =>
        have hchild := le_of_mem_forest hbelow rfl hmem
        have hstep := hfirst first rfl
        show child.depth = Number.plus line.depth 1
        omega
    · exact hstepped root ((List.dropWhile_sublist _).subset hroot)

/-! ## Stepped trees -/

/-- The first root of a forest is the first of its lines. -/
theorem forall_head?_forest {depth : Int} (h : ∀ first ∈ lines.head?, first.depth ≤ depth) :
    ∀ first ∈ (forest lines).head?, first.depth ≤ depth := by
  intro root hroot
  have hhead := head?_forest lines
  rw [Option.mem_def.mp hroot] at hhead
  obtain ⟨first, hfirst, hdepth⟩ := Option.map_eq_some_iff.mp hhead.symm
  rw [← hdepth]
  exact h first hfirst

/-- A line takes all trees that are deeper, up to one that is not. -/
theorem graft_append_of_deeper {children others : List Line} (hbare : line.children = [])
    (hdeeper : ∀ child ∈ children, line.depth < child.depth)
    (hothers : ∀ first ∈ others.head?, first.depth ≤ line.depth) :
    graft line (children ++ others) = { line with children := children } :: others := by
  have htake : children.takeWhile (fun tree => decide (line.depth < tree.depth)) = children :=
    List.takeWhile_eq_self_iff.mpr (by simpa using hdeeper)
  have hdrop : children.dropWhile (fun tree => decide (line.depth < tree.depth)) = [] :=
    List.dropWhile_eq_nil_iff.mpr (by simpa using hdeeper)
  rw [graft_append hothers, graft_of_bare hbare, htake, hdrop]
  rfl

/-- In front of the trees of one depth no line is less deep. -/
theorem le_of_head?_append {root : Line} {others : List Line}
    (hdepth : ∀ other ∈ trees, root.depth = other.depth)
    (hothers : ∀ first ∈ others.head?, first.depth ≤ root.depth) :
    ∀ first ∈ (forestPreorder trees ++ others).head?, first.depth ≤ root.depth := by
  cases trees with
  | nil => exact hothers
  | cons next rest =>
    rw [forestPreorder, preorder_eq]
    rintro _ ⟨⟩
    exact Int.le_of_eq (hdepth next List.mem_cons_self).symm

mutual

/-- The lines of a stepped tree are nested as they were, in front of lines that are no deeper. -/
theorem forest_preorder_append : ∀ (line : Line) (others : List Line), Stepped line →
    (∀ first ∈ others.head?, first.depth ≤ line.depth) →
      forest (preorder line ++ others) = line :: forest others
  | ⟨text, depth, index, offset, filename, children⟩, others, hstepped, hothers => by
    obtain ⟨hlevel, hbelow⟩ := hstepped
    have hchildren := forest_forestPreorder_append children others hbelow
      (fun child hchild other hother => (hlevel child hchild).2.trans (hlevel other hother).2.symm)
      (fun child hchild first hfirst =>
        Int.le_trans (hothers first hfirst) (Int.le_of_lt (hlevel child hchild).1))
    rw [preorder, List.cons_append, forest_cons, hchildren]
    exact graft_append_of_deeper rfl (fun child hchild => (hlevel child hchild).1)
      (forall_head?_forest hothers)

/-- The lines of stepped trees of one depth are nested as they were, in front of lines that are no
deeper. -/
theorem forest_forestPreorder_append : ∀ (trees others : List Line),
    (∀ root ∈ trees, Stepped root) → (∀ root ∈ trees, ∀ other ∈ trees, root.depth = other.depth) →
      (∀ root ∈ trees, ∀ first ∈ others.head?, first.depth ≤ root.depth) →
        forest (forestPreorder trees ++ others) = trees ++ forest others
  | [], others, _, _, _ => rfl
  | root :: trees, others, hstepped, hdepth, hothers => by
    obtain ⟨hroot, hrest⟩ := List.forall_mem_cons.mp hstepped
    have htrees := forest_forestPreorder_append trees others hrest
      (fun one hone other hother =>
        hdepth one (List.mem_cons_of_mem _ hone) other (List.mem_cons_of_mem _ hother))
      (fun one hone => hothers one (List.mem_cons_of_mem _ hone))
    rw [forestPreorder, List.append_assoc, forest_preorder_append root _ hroot, htrees]
    · rfl
    · exact le_of_head?_append
        (fun other hother => hdepth root List.mem_cons_self other (List.mem_cons_of_mem _ hother))
        (hothers root List.mem_cons_self)

end

/-- Stepped trees of one depth are the forest of their lines. -/
theorem forest_forestPreorder {base : Int} (h : ∀ root ∈ trees, root.depth = base ∧ Stepped root) :
    forest (forestPreorder trees) = trees := by
  have happend := forest_forestPreorder_append trees [] (fun root hroot => (h root hroot).2)
    (fun root hroot other hother => (h root hroot).1.trans (h other hother).1.symm) (by simp)
  rw [List.append_nil] at happend
  rw [happend]
  exact List.append_nil trees

end Line

end Stylesheet
