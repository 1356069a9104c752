import Stylesheet.Workspace.Basic
import Stylesheet.Workspace.Notice

/-!
# Visiting stylesheets depth first

The imports of a stylesheet are visited in their order, each with all that it reaches before the
next. A stylesheet that is being visited is not followed again but noticed as a circle, and one that
has been visited is skipped. `loadImportGraph` calls its inner `visit` recursively; here the calls
that are still to be made stand on an agenda.

- `Visit`, `Traversal`: a stylesheet to be visited, and how far the visits have come.
- `Traversal.run`: makes the visits of an agenda. `Traversal.run_cons` says what the first of them
  does; each visit to a new stylesheet leaves fewer unvisited (`Traversal.unvisited_enter_lt`), so
  the visits come to an end also where stylesheets import each other.
-/

namespace Stylesheet

/-! ## Visits -/

/-- A stylesheet to be visited: the arguments of a call of `visit` in `loadImportGraph`. -/
structure Visit where
  path : Text
  /-- The paths that are being visited, the first one first. -/
  chain : List Text := []
  /-- Where the stylesheet is imported. -/
  site : Option Site := none

/-- How far a traversal has come. -/
structure Traversal where
  workspace : Workspace
  /-- The stylesheets visited so far. -/
  graph : Table Text Sheet := .empty
  notices : List Notice := []

namespace Traversal

/-- The traversal with one more notice. -/
def tell (t : Traversal) (notice : Notice) : Traversal :=
  { t with notices := t.notices ++ [notice] }

/-- The traversal with a stylesheet visited, which `workspace` holds. -/
def enter (t : Traversal) (workspace : Workspace) (path : Text) (sheet : Sheet) : Traversal :=
  { t with
    workspace := workspace.record path sheet.imports
    graph := t.graph.insert path sheet }

/-- The imports of a stylesheet that has just been visited, as visits. -/
def onward (visit : Visit) (sheet : Sheet) : List Visit :=
  sheet.imports.map fun next => ⟨next.path, visit.chain ++ [visit.path], some next.site⟩

/-- The number of places at which a stylesheet is known that has not been visited. -/
def unvisited (fs : FileSystem) (t : Traversal) : Nat :=
  (t.workspace.known fs).countP (fun path => !t.graph.contains path)

theorem contains_enter (t : Traversal) (workspace : Workspace) (path other : Text)
    (sheet : Sheet) :
    (t.enter workspace path sheet).graph.contains other =
      (decide (path = other) || t.graph.contains other) := by
  simp only [Table.contains, enter, Table.get?_insert]
  by_cases h : path = other <;> simp [h]

/-- A predicate that holds of fewer members counts less. -/
theorem countP_lt_countP {α : Type} {p q : α → Bool} {l : List α} {a : α} (ha : a ∈ l)
    (hq : q a = true) (hp : p a = false) (h : ∀ b, p b = true → q b = true) :
    l.countP p < l.countP q := by
  induction l with
  | nil => cases ha
  | cons b l ih =>
    have hle : l.countP p ≤ l.countP q := List.countP_mono_left fun b _ => h b
    rcases List.mem_cons.1 ha with rfl | ha
    · simp only [List.countP_cons, hq, hp, if_true]
      simp only [Bool.false_eq_true, if_false]
      omega
    · have hlt := ih ha
      have hb := h b
      simp only [List.countP_cons]
      cases hpb : p b
      · cases q b <;> simp <;> omega
      · simp [hb hpb]
        omega

/-- A visit to a new stylesheet leaves fewer unvisited. -/
theorem unvisited_enter_lt {fs : FileSystem} {overrides : Overrides} {t : Traversal} {visit : Visit}
    {site : Site} {sheet : Sheet} {workspace : Workspace}
    (hload : t.workspace.load fs overrides visit.path site = .ok (sheet, workspace))
    (hnew : t.graph.contains visit.path = false) :
    (t.enter workspace visit.path sheet).unvisited fs < t.unvisited fs := by
  obtain ⟨hmem, hknown⟩ := Workspace.known_load hload
  have hsame : (t.enter workspace visit.path sheet).unvisited fs =
      (t.workspace.known fs).countP
        (fun path => !(t.enter workspace visit.path sheet).graph.contains path) := by
    show (workspace.known fs).countP _ = _
    rcases hknown with h | h
    · rw [h]
    · rw [h, Workspace.known]
      simp [List.countP_append, contains_enter]
  rw [hsame]
  refine countP_lt_countP hmem (by simp [hnew]) (by simp [contains_enter]) fun path hpath => ?_
  simp only [contains_enter, Bool.not_eq_true', Bool.or_eq_false_iff] at hpath
  simp [hpath.2]

/-! ## Runs -/

/-- Makes the visits of an agenda in turn, up to the first one to a new stylesheet. That is entered,
and `further` goes on with its imports, which come before the rest of the agenda. A stylesheet that
cannot be had ends the traversal. -/
def walk (fs : FileSystem) (overrides : Overrides)
    (further : List Visit → Traversal → Except SyntaxError Unit × Traversal) :
    List Visit → Traversal → Except SyntaxError Unit × Traversal
  | [], t => (.ok (), t)
  | visit :: agenda, t =>
    -- The chain is looked at first: a circle is noticed although its stylesheet has been entered.
    if visit.path ∈ visit.chain then
      walk fs overrides further agenda
        (t.tell (.circularImport visit.site (visit.chain ++ [visit.path])))
    else if t.graph.contains visit.path then walk fs overrides further agenda t
    else
      match t.workspace.load fs overrides visit.path (visit.site.getD ⟨1, none⟩) with
      | .error e => (.error e, t)
      | .ok (sheet, workspace) =>
        -- Entered before its own imports are: this gives the order of the visits.
        further (onward visit sheet ++ agenda) (t.enter workspace visit.path sheet)

/-- Makes the visits of an agenda, but enters fewer than `bound` stylesheets. The bound is what the
recursion runs on, since the agenda grows. -/
def runWithin (fs : FileSystem) (overrides : Overrides) :
    Nat → List Visit → Traversal → Except SyntaxError Unit × Traversal
  | 0 => fun _ t => (.ok (), t)
  | bound + 1 => walk fs overrides (runWithin fs overrides bound)

/-- Makes the visits of an agenda in turn. The bound is never reached (`runWithin_eq`). -/
def run (fs : FileSystem) (overrides : Overrides) (agenda : List Visit) (t : Traversal) :
    Except SyntaxError Unit × Traversal :=
  runWithin fs overrides (t.unvisited fs + 1) agenda t

/-! ## The steps of a traversal -/

/-- A bound above the number of unvisited places is never reached. -/
theorem runWithin_eq {fs : FileSystem} {overrides : Overrides} {m n : Nat} {agenda : List Visit}
    {t : Traversal} (hm : t.unvisited fs < m) (hn : t.unvisited fs < n) :
    runWithin fs overrides m agenda t = runWithin fs overrides n agenda t := by
  induction m generalizing n agenda t with
  | zero => exact absurd hm (Nat.not_lt_zero _)
  | succ m ih =>
    obtain _ | n := n
    · exact absurd hn (Nat.not_lt_zero _)
    show walk fs overrides (runWithin fs overrides m) agenda t =
      walk fs overrides (runWithin fs overrides n) agenda t
    -- Visits that enter nothing keep the bound: these are an induction on the agenda. One that does
    -- lowers it, and the outer induction goes on.
    induction agenda generalizing t with
    | nil => rfl
    | cons visit agenda ihAgenda =>
      simp only [walk]
      split
      · exact ihAgenda hm hn
      · split
        · exact ihAgenda hm hn
        · rename_i hnew
          split
          · rfl
          · rename_i hload
            have hlt := unvisited_enter_lt hload (by simpa using hnew)
            exact ih (by omega) (by omega)

theorem run_nil (fs : FileSystem) (overrides : Overrides) (t : Traversal) :
    run fs overrides [] t = (.ok (), t) := rfl

/-- The first visit of an agenda, and then the others. -/
theorem run_cons (fs : FileSystem) (overrides : Overrides) (visit : Visit) (agenda : List Visit)
    (t : Traversal) :
    run fs overrides (visit :: agenda) t =
      if visit.path ∈ visit.chain then
        run fs overrides agenda
          (t.tell (.circularImport visit.site (visit.chain ++ [visit.path])))
      else if t.graph.contains visit.path then run fs overrides agenda t
      else
        match t.workspace.load fs overrides visit.path (visit.site.getD ⟨1, none⟩) with
        | .error e => (.error e, t)
        | .ok (sheet, workspace) =>
          run fs overrides (onward visit sheet ++ agenda)
            (t.enter workspace visit.path sheet) := by
  show walk fs overrides (runWithin fs overrides (t.unvisited fs)) (visit :: agenda) t = _
  simp only [walk]
  split
  · rfl
  · split
    · rfl
    · rename_i hnew
      split
      · rfl
      · rename_i hload
        exact runWithin_eq (unvisited_enter_lt hload (by simpa using hnew)) (Nat.lt_succ_self _)

end Traversal

end Stylesheet
