import Stylesheet.Proofs.Line.Forest

/-!
# Building a level

A forest can be built level by level, with a cursor that goes through the lines once: lines of the
level's depth become its trees, and where a deeper line follows, the lines from it on make up the
level beneath the last tree.

- `Line.Builds`: what a run of this loop ends with; `Builds.unique` says that it ends in one way
  only.
- `Line.remaining`: the lines of a level from the cursor on, and `Line.levelEnd`, the position
  behind them.
- `Line.levelled`: an outcome in terms of the lines that are left of the level.
  `Beneath.levelled_eq` takes the level beneath a line out of them.
- `Line.settles`: the loop always ends, as `levelled` says.
-/

namespace Stylesheet.Line

variable {lines run front rest : List Line} {line first previous : Line} {base : Int}
  {cursor next start : Nat}

/-! ## The loop -/

/-- A run of the loop that builds the level of depth `base`, with the trees that it has and a
cursor, ends with an outcome. -/
inductive Builds (lines : List Line) :
    Int → List Line → Nat → Except SyntaxError (List Line × Nat) → Prop where
  /-- The level is over. -/
  | stop {base : Int} {trees : List Line} {cursor : Nat}
    (hstop : ∀ line ∈ lines[cursor]?, line.depth < base) :
    Builds lines base trees cursor (.ok (trees, cursor))
  /-- The line is the next tree. -/
  | push {base : Int} {trees : List Line} {cursor : Nat} {line : Line}
    {outcome : Except SyntaxError (List Line × Nat)} (hline : lines[cursor]? = some line)
    (hbase : base ≤ line.depth) (hlevel : line.depth = base ∨ trees.getLast? = none)
    (hrest : Builds lines base (trees ++ [line]) (cursor + 1) outcome) :
    Builds lines base trees cursor outcome
  /-- The line is too deep. -/
  | refuse {base : Int} {trees : List Line} {cursor : Nat} {line last : Line}
    (hline : lines[cursor]? = some line) (hbase : base < line.depth)
    (hlast : trees.getLast? = some last) (hjump : Number.plus base 1 < line.depth) :
    Builds lines base trees cursor (.error (line.fault (.overIndented (line.depth - base))))
  /-- The level that starts with the line lies beneath the last tree. -/
  | descend {base : Int} {trees inner : List Line} {cursor next : Nat} {line last : Line}
    {outcome : Except SyntaxError (List Line × Nat)} (hline : lines[cursor]? = some line)
    (hbase : base < line.depth) (hlast : trees.getLast? = some last)
    (hstep : line.depth ≤ Number.plus base 1)
    (hinner : Builds lines line.depth [] cursor (.ok (inner, next)))
    (hrest : Builds lines base (trees.dropLast ++ [{ last with children := inner }]) next outcome) :
    Builds lines base trees cursor outcome
  /-- The level beneath the last tree cannot be built. -/
  | fail {base : Int} {trees : List Line} {cursor : Nat} {line last : Line} {e : SyntaxError}
    (hline : lines[cursor]? = some line) (hbase : base < line.depth)
    (hlast : trees.getLast? = some last) (hstep : line.depth ≤ Number.plus base 1)
    (hinner : Builds lines line.depth [] cursor (.error e)) :
    Builds lines base trees cursor (.error e)

/-- A line that is deeper than the level stands beneath its last tree. -/
theorem not_level {trees : List Line} {last : Line} (hdeeper : base < line.depth)
    (hlast : trees.getLast? = some last) : ¬(line.depth = base ∨ trees.getLast? = none) := by
  rintro (hsame | hnone)
  · omega
  · rw [hlast] at hnone
    cases hnone

/-- A run of the loop has one outcome. -/
theorem Builds.unique {trees : List Line} {outcome other : Except SyntaxError (List Line × Nat)}
    (h : Builds lines base trees cursor outcome) (h' : Builds lines base trees cursor other) :
    outcome = other := by
  -- at one cursor the cases of the loop exclude each other, so both runs go the same way
  induction h generalizing other with
  | stop hstop =>
    cases h' with
    | stop _ => rfl
    | push hline hbase _ _ => exact absurd (hstop _ hline) (by omega)
    | refuse hline hbase _ _ => exact absurd (hstop _ hline) (by omega)
    | descend hline hbase _ _ _ _ => exact absurd (hstop _ hline) (by omega)
    | fail hline hbase _ _ _ => exact absurd (hstop _ hline) (by omega)
  | push hline hbase hlevel _ ih =>
    cases h' with
    | stop hstop => exact absurd (hstop _ hline) (by omega)
    | push hline' _ _ hrest =>
      cases hline.symm.trans hline'
      exact ih hrest
    | refuse hline' hdeeper hlast _ =>
      cases hline.symm.trans hline'
      exact absurd hlevel (not_level hdeeper hlast)
    | descend hline' hdeeper hlast _ _ _ =>
      cases hline.symm.trans hline'
      exact absurd hlevel (not_level hdeeper hlast)
    | fail hline' hdeeper hlast _ _ =>
      cases hline.symm.trans hline'
      exact absurd hlevel (not_level hdeeper hlast)
  | refuse hline hdeeper hlast hjump =>
    cases h' with
    | stop hstop => exact absurd (hstop _ hline) (by omega)
    | push hline' _ hlevel _ =>
      cases hline.symm.trans hline'
      exact absurd hlevel (not_level hdeeper hlast)
    | refuse hline' _ _ _ =>
      cases hline.symm.trans hline'
      rfl
    | descend hline' _ _ hstep _ _ =>
      cases hline.symm.trans hline'
      omega
    | fail hline' _ _ hstep _ =>
      cases hline.symm.trans hline'
      omega
  | descend hline hdeeper hlast hstep _ _ ihinner ih =>
    cases h' with
    | stop hstop => exact absurd (hstop _ hline) (by omega)
    | push hline' _ hlevel _ =>
      cases hline.symm.trans hline'
      exact absurd hlevel (not_level hdeeper hlast)
    | refuse hline' _ _ hjump =>
      cases hline.symm.trans hline'
      omega
    | descend hline' _ hlast' _ hinner hrest =>
      cases hline.symm.trans hline'
      cases hlast.symm.trans hlast'
      cases ihinner hinner
      exact ih hrest
    | fail hline' _ _ _ hinner =>
      cases hline.symm.trans hline'
      cases ihinner hinner
  | fail hline hdeeper hlast hstep _ ih =>
    cases h' with
    | stop hstop => exact absurd (hstop _ hline) (by omega)
    | push hline' _ hlevel _ =>
      cases hline.symm.trans hline'
      exact absurd hlevel (not_level hdeeper hlast)
    | refuse hline' _ _ hjump =>
      cases hline.symm.trans hline'
      omega
    | descend hline' _ _ _ hinner _ =>
      cases hline.symm.trans hline'
      cases ih hinner
    | fail hline' _ _ _ hinner =>
      cases hline.symm.trans hline'
      cases ih hinner
      rfl

/-! ## What is left of a level -/

/-- The lines from the cursor on, up to one that is less deep than `base`. -/
def remaining (lines : List Line) (base : Int) (cursor : Nat) : List Line :=
  (lines.drop cursor).takeWhile fun line => base ≤ line.depth

/-- The position of the first line from the cursor on that is less deep than `base`. -/
def levelEnd (lines : List Line) (base : Int) (cursor : Nat) : Nat :=
  cursor + (remaining lines base cursor).length

/-- A level is what is left of it where it starts. -/
theorem level_eq_remaining (h : lines[start]? = some first) :
    level lines start = remaining lines first.depth start := by
  unfold level remaining
  rw [List.drop_eq_getElem?_toList_append, h]
  simp

theorem mem_remaining (h : line ∈ remaining lines base cursor) :
    line ∈ lines ∧ base ≤ line.depth :=
  ⟨List.drop_subset cursor lines ((List.takeWhile_sublist _).subset h),
    by simpa using List.mem_takeWhile_imp h⟩

theorem remaining_eq_nil (h : ∀ line ∈ lines[cursor]?, line.depth < base) :
    remaining lines base cursor = [] := by
  unfold remaining
  cases hline : lines[cursor]? with
  | none => rw [List.drop_eq_nil_of_le (List.getElem?_eq_none_iff.mp hline), List.takeWhile_nil]
  | some line =>
    have hlt := h line hline
    rw [List.drop_eq_getElem?_toList_append, hline]
    simpa using hlt

/-- While the line at the cursor is deep enough, it is the first of those left. -/
theorem remaining_eq_cons (hline : lines[cursor]? = some line) (h : base ≤ line.depth) :
    remaining lines base cursor = line :: remaining lines base (cursor + 1) := by
  unfold remaining
  rw [List.drop_eq_getElem?_toList_append, hline]
  simp [h]

theorem remaining_append_dropWhile (lines : List Line) (base : Int) (cursor : Nat) :
    remaining lines base cursor ++ (lines.drop cursor).dropWhile (fun line => base ≤ line.depth) =
      lines.drop cursor :=
  List.takeWhile_append_dropWhile

theorem head?_remaining (hline : lines[cursor]? = some line) :
    (remaining lines line.depth cursor).head? = some line := by
  rw [remaining_eq_cons hline (Int.le_refl _)]
  rfl

/-- Behind a level stands the first line that is too shallow for it, with all that follows. -/
theorem drop_levelEnd (lines : List Line) (base : Int) (cursor : Nat) :
    lines.drop (levelEnd lines base cursor) =
      (lines.drop cursor).dropWhile fun line => base ≤ line.depth := by
  have hcut := remaining_append_dropWhile lines base cursor
  calc lines.drop (levelEnd lines base cursor)
      = (lines.drop cursor).drop (remaining lines base cursor).length := List.drop_drop.symm
    _ = _ := by
      conv => lhs; rw [← hcut]
      exact List.drop_left

/-- The line behind a level is less deep. -/
theorem lt_of_getElem?_levelEnd (h : lines[levelEnd lines base cursor]? = some line) :
    line.depth < base := by
  have hnot := List.head?_dropWhile_not (fun line : Line => decide (base ≤ line.depth))
    (lines.drop cursor)
  rw [← drop_levelEnd, List.head?_drop, h] at hnot
  simpa using hnot

/-- A level goes on behind a deeper one that starts where it does. -/
theorem remaining_eq_append {deeper : Int} (h : base ≤ deeper) :
    remaining lines base cursor =
      remaining lines deeper cursor ++ remaining lines base (levelEnd lines deeper cursor) := by
  have hdeep : ∀ line ∈ remaining lines deeper cursor, decide (base ≤ line.depth) = true := by
    intro line hline
    have hdepth := (mem_remaining hline).2
    exact decide_eq_true (by omega)
  calc remaining lines base cursor
      = (remaining lines deeper cursor ++
          (lines.drop cursor).dropWhile (fun line => deeper ≤ line.depth)).takeWhile
            (fun line => base ≤ line.depth) := by
        rw [remaining_append_dropWhile]
        rfl
    _ = remaining lines deeper cursor ++
          ((lines.drop cursor).dropWhile (fun line => deeper ≤ line.depth)).takeWhile
            (fun line => base ≤ line.depth) := List.takeWhile_append_of_pos hdeep
    _ = _ := by
        rw [← drop_levelEnd]
        rfl

theorem getElem?_of_head?_remaining (h : (remaining lines base cursor).head? = some line) :
    lines[cursor]? = some line := by
  rw [remaining, List.head?_takeWhile, List.head?_drop] at h
  exact (Option.filter_eq_some_iff.mp h).1

theorem le_levelEnd (lines : List Line) (base : Int) (cursor : Nat) :
    cursor ≤ levelEnd lines base cursor :=
  Nat.le_add_right _ _

theorem levelEnd_eq_self (h : ∀ line ∈ lines[cursor]?, line.depth < base) :
    levelEnd lines base cursor = cursor := by
  simp [levelEnd, remaining_eq_nil h]

theorem levelEnd_succ (hline : lines[cursor]? = some line) (h : base ≤ line.depth) :
    levelEnd lines base (cursor + 1) = levelEnd lines base cursor := by
  rw [levelEnd, levelEnd, remaining_eq_cons hline h, List.length_cons]
  omega

/-- A level ends at the same line if it is looked at from behind a deeper level in it. -/
theorem levelEnd_levelEnd {deeper : Int} (h : base ≤ deeper) :
    levelEnd lines base (levelEnd lines deeper cursor) = levelEnd lines base cursor := by
  have hsplit : remaining lines base cursor = _ := remaining_eq_append h
  show levelEnd lines deeper cursor + _ = cursor + (remaining lines base cursor).length
  rw [hsplit, List.length_append, ← Nat.add_assoc]
  rfl

/-! ## The outcome -/

/-- What the loop ends with if `front` are the finished trees, `run` are the lines of the level that
are left, and `next` is the position behind them. -/
def levelled (front run : List Line) (next : Nat) : Except SyntaxError (List Line × Nat) :=
  match overIndented? run with
  | some (line, levels) => .error (line.fault (.overIndented levels))
  | none => .ok (front ++ forest run, next)

/-- Nesting is building the whole level, with no tree in front of it. -/
theorem nest_eq_levelled (lines : List Line) (start : Nat) :
    nest lines start = levelled [] (level lines start) (start + (level lines start).length) := rfl

/-- Only a line that is too deep breaks a level off, and it is the one that is blamed. -/
theorem levelled_eq_error_iff {e : SyntaxError} :
    levelled front run next = .error e ↔
      ∃ line levels, overIndented? run = some (line, levels) ∧
        e = line.fault (.overIndented levels) := by
  unfold levelled
  cases overIndented? run with
  | none => simp
  | some found =>
    constructor
    · rintro ⟨⟩
      exact ⟨found.1, found.2, rfl, rfl⟩
    · rintro ⟨line, levels, ⟨⟩, rfl⟩
      rfl

theorem levelled_eq_ok_iff {trees : List Line} {after : Nat} :
    levelled front run next = .ok (trees, after) ↔
      overIndented? run = none ∧ trees = front ++ forest run ∧ after = next := by
  unfold levelled
  cases overIndented? run with
  | none => simp [eq_comm]
  | some found => simp

theorem levelled_nil (front : List Line) (next : Nat) :
    levelled front [] next = .ok (front, next) := by
  simp [levelled, overIndented?, forest]

/-- A line that nothing deeper follows does not matter to the check. -/
theorem overIndented?_cons_of_le (hround : Number.round line.depth = line.depth)
    (h : ∀ first ∈ run.head?, first.depth ≤ line.depth) :
    overIndented? (line :: run) = overIndented? run := by
  cases run with
  | nil => rfl
  | cons first rest =>
    have hle := h first rfl
    have hsum := Number.le_plus_one hround
    rw [overIndented?, if_neg (by omega)]

/-- A tree in front of a line that is no deeper is finished. -/
theorem levelled_cons_of_le (hround : Number.round line.depth = line.depth)
    (h : ∀ first ∈ run.head?, first.depth ≤ line.depth) (front : List Line) (next : Nat) :
    levelled front (line :: run) next = levelled (front ++ [line]) run next := by
  unfold levelled
  rw [overIndented?_cons_of_le hround h, forest_cons, graft_of_le (forall_head?_forest h),
    List.append_assoc]
  rfl

/-- The lines `below`, of which `first` is the first one, are the level beneath `previous`, and
`run` goes on behind them. -/
structure Beneath (previous first : Line) (below run : List Line) : Prop where
  head : below.head? = some first
  deeper : previous.depth < first.depth
  step : first.depth ≤ Number.plus previous.depth 1
  level : ∀ line ∈ below, first.depth ≤ line.depth
  closed : ∀ line ∈ run.head?, line.depth ≤ previous.depth

section

variable {below : List Line} (h : Beneath previous first below run)
  (hbare : ∀ line ∈ below, line.children = [])
  (hround : ∀ line ∈ below, Number.round line.depth = line.depth)

include h hround in
theorem Beneath.overIndented?_eq :
    overIndented? (previous :: (below ++ run)) = (overIndented? below).or (overIndented? run) := by
  have hlast : ∀ last ∈ below.getLast?, ∀ line ∈ run.head?,
      line.depth ≤ Number.plus last.depth 1 := by
    intro last hmem line hline
    have hlow := h.closed line hline
    have hhigh := h.level last (List.mem_of_getLast? hmem)
    have hdeeper := h.deeper
    have hsum := Number.le_plus_one (hround last (List.mem_of_getLast? hmem))
    omega
  rw [← overIndented?_append hlast]
  obtain ⟨rest, rfl⟩ := List.head?_eq_some_iff.mp h.head
  have hstep := h.step
  rw [List.cons_append, overIndented?, if_neg (by omega)]

include h hbare in
theorem Beneath.forest_eq (hown : previous.children = []) :
    forest (previous :: (below ++ run)) =
      { previous with children := forest below } :: forest run := by
  have hsplit : forest (below ++ run) = forest below ++ forest run := by
    apply forest_append
    intro line hline other hother
    have hlow := h.closed line hline
    have hhigh := h.level other hother
    have hdeeper := h.deeper
    omega
  rw [forest_cons, hsplit]
  refine graft_append_of_deeper hown (fun tree htree => ?_) (forall_head?_forest h.closed)
  rw [depth_of_mem_forest hbare h.head h.level htree]
  exact h.deeper

include h hbare hround in
/-- A tree takes the level beneath it, and is finished then. -/
theorem Beneath.levelled_eq (hown : previous.children = []) (front : List Line) (middle next : Nat) :
    levelled front (previous :: (below ++ run)) next =
      (levelled [] below middle).bind fun (inner, _) =>
        levelled (front ++ [{ previous with children := inner }]) run next := by
  unfold levelled
  rw [h.overIndented?_eq hround, h.forest_eq hbare hown]
  cases overIndented? below with
  | some found => rfl
  | none =>
    rw [Option.none_or]
    simp [Except.bind]

end

/-! ## Every outcome -/

section

variable {trees : List Line} (hbare : ∀ line ∈ lines, line.children = [])
  (hround : ∀ line ∈ lines, Number.round line.depth = line.depth)

/-- Behind finished trees the loop ends as `levelled` says, from the cursor on. -/
def Settles (lines : List Line) (cursor : Nat) : Prop :=
  ∀ (base : Int) (trees : List Line), (∀ line ∈ lines[cursor]?, line.depth ≤ base) →
    Builds lines base trees cursor
      (levelled trees (remaining lines base cursor) (levelEnd lines base cursor))

/-- From a line on, the loop builds the level of this line. -/
theorem Settles.builds (h : Settles lines cursor) (hline : lines[cursor]? = some line) :
    Builds lines line.depth [] cursor
      (levelled [] (remaining lines line.depth cursor) (levelEnd lines line.depth cursor)) := by
  apply h
  rw [hline]
  rintro _ ⟨⟩
  exact Int.le_refl _

include hround in
/-- The line behind a level is no deeper than the line above that level. -/
theorem le_of_getElem?_levelEnd {after : Line} (hstep : line.depth ≤ Number.plus previous.depth 1)
    (h : lines[levelEnd lines line.depth cursor]? = some after) : after.depth ≤ previous.depth := by
  have hlow := lt_of_getElem?_levelEnd h
  have hnumber := hround after (List.mem_of_getElem? h)
  -- between the two depths there is no number
  by_contra hnot
  have hle := Number.plus_one_le hnumber (Int.not_le.mp hnot)
  omega

include hround in
/-- The level that starts with a line beneath another one, and what is left of the level of that
one. -/
theorem beneath_remaining (hline : lines[cursor]? = some line)
    (hdeeper : previous.depth < line.depth) (hstep : line.depth ≤ Number.plus previous.depth 1) :
    Beneath previous line (remaining lines line.depth cursor)
      (remaining lines previous.depth (levelEnd lines line.depth cursor)) where
  head := head?_remaining hline
  deeper := hdeeper
  step := hstep
  level _ hother := (mem_remaining hother).2
  closed _ hafter :=
    le_of_getElem?_levelEnd hround hstep (getElem?_of_head?_remaining hafter)

include hbare hround in
/-- The loop ends as `levelled` says if a line has just become a tree and one that may be beneath it
follows. -/
theorem builds_beneath (hsettles : ∀ next, cursor ≤ next → Settles lines next)
    (hprevious : previous ∈ lines) (hline : lines[cursor]? = some line)
    (hdeeper : previous.depth < line.depth) (hstep : line.depth ≤ Number.plus previous.depth 1)
    (front : List Line) :
    Builds lines previous.depth (front ++ [previous]) cursor
      (levelled front (previous :: remaining lines previous.depth cursor)
        (levelEnd lines previous.depth cursor)) := by
  have hbeneath := beneath_remaining hround hline hdeeper hstep
  have hinner := (hsettles cursor (Nat.le_refl cursor)).builds hline
  rw [remaining_eq_append (Int.le_of_lt hdeeper), hbeneath.levelled_eq
    (fun other hother => hbare other (mem_remaining hother).1)
    (fun other hother => hround other (mem_remaining hother).1) (hbare previous hprevious) front
    (levelEnd lines line.depth cursor)]
  cases houtcome : levelled [] (remaining lines line.depth cursor)
      (levelEnd lines line.depth cursor) with
  | error e =>
    rw [houtcome] at hinner
    exact .fail hline hdeeper List.getLast?_concat hstep hinner
  | ok result =>
    obtain ⟨inner, middle⟩ := result
    obtain ⟨-, -, rfl⟩ := levelled_eq_ok_iff.mp houtcome
    rw [houtcome] at hinner
    have hrest := hsettles (levelEnd lines line.depth cursor) (le_levelEnd _ _ _) previous.depth
      (front ++ [{ previous with children := inner }])
      fun after hafter => le_of_getElem?_levelEnd hround hstep hafter
    rw [levelEnd_levelEnd (Int.le_of_lt hdeeper)] at hrest
    exact .descend hline hdeeper List.getLast?_concat hstep hinner (by rwa [List.dropLast_concat])

include hbare hround in
/-- The loop ends as `levelled` says if a line has just become a tree. -/
theorem builds_behind (hsettles : ∀ next, cursor ≤ next → Settles lines next)
    (hprevious : previous ∈ lines) (front : List Line) :
    Builds lines previous.depth (front ++ [previous]) cursor
      (levelled front (previous :: remaining lines previous.depth cursor)
        (levelEnd lines previous.depth cursor)) := by
  by_cases hdeeper : ∀ line ∈ lines[cursor]?, line.depth ≤ previous.depth
  case pos =>
    rw [levelled_cons_of_le (hround previous hprevious)
      fun first hfirst => hdeeper first (getElem?_of_head?_remaining hfirst)]
    exact hsettles cursor (Nat.le_refl cursor) _ _ hdeeper
  case neg =>
    -- the line that follows is too deep, or starts the level beneath the tree
    simp only [not_forall, Int.not_le] at hdeeper
    obtain ⟨line, hline, hdeeper⟩ := hdeeper
    by_cases hjump : Number.plus previous.depth 1 < line.depth
    case pos =>
      rw [remaining_eq_cons hline (Int.le_of_lt hdeeper), levelled, overIndented?, if_pos hjump]
      exact .refuse hline hdeeper List.getLast?_concat hjump
    case neg =>
      exact builds_beneath hbare hround hsettles hprevious hline hdeeper (Int.not_lt.mp hjump) front

include hbare hround in
/-- The cursor moves on until the loop ends. -/
theorem settles (cursor : Nat) : Settles lines cursor := by
  -- on the number of lines that are left: behind a new tree the cursor has moved on
  induction hlength : lines.length - cursor using Nat.strong_induction_on generalizing cursor with
  | _ length ih =>
    intro base trees hle
    by_cases hstop : ∀ line ∈ lines[cursor]?, line.depth < base
    case pos =>
      rw [levelEnd_eq_self hstop, remaining_eq_nil hstop, levelled_nil]
      exact .stop hstop
    case neg =>
      simp only [not_forall, Int.not_lt] at hstop
      obtain ⟨line, hline, hbase⟩ := hstop
      obtain rfl : line.depth = base := Int.le_antisymm (hle line hline) hbase
      have hlt : cursor < lines.length := (List.getElem?_eq_some_iff.mp hline).1
      rw [remaining_eq_cons hline hbase, ← levelEnd_succ hline hbase]
      refine .push hline hbase (.inl rfl) ?_
      exact builds_behind hbare hround
        (fun next hnext => ih (lines.length - next) (by omega) next rfl)
        (List.mem_of_getElem? hline) trees

end

end Stylesheet.Line
