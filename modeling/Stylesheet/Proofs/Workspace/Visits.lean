import Stylesheet.Proofs.Workspace.Lookup
import Stylesheet.Workspace.Traversal

/-!
# The recursion of a traversal

A traversal works through one agenda. Seen from a stylesheet, it visits this, then its imports one
by one, and comes back.

- `Traversal.visited`: the traversal that has visited a stylesheet it looked up.
- `run_append`: the visits at the front of an agenda come to an end before the others start.
- `Traversal.Visits`: the recursion, as a relation that has a derivation just where it ends.
- `visits_run`, `Visits.run_eq`: every traversal has such a derivation, and only one outcome.
-/

namespace Stylesheet.Traversal

variable {fs : FileSystem} {overrides : Overrides} {visit : Visit} {agenda : List Visit}
  {t middle final : Traversal} {sheet : Sheet}

/-- The traversal that has just visited a stylesheet and keeps it. -/
def visited (t : Traversal) (path : Text) (sheet : Sheet) : Traversal :=
  t.enter (t.workspace.keep path sheet) path sheet

/-- The answer to a visit. -/
def answer (fs : FileSystem) (overrides : Overrides) (t : Traversal) (visit : Visit) :
    Except SyntaxError Sheet :=
  t.workspace.lookup fs overrides visit.path (visit.site.getD ⟨1, none⟩)

/-- The traversal with the notice that a visit closes a circle. -/
def circled (t : Traversal) (visit : Visit) : Traversal :=
  t.tell (.circularImport visit.site (visit.chain ++ [visit.path]))

/-! ## The first visit of an agenda -/

theorem run_of_circle (h : visit.path ∈ visit.chain) :
    run fs overrides (visit :: agenda) t = run fs overrides agenda (t.circled visit) := by
  rw [run_cons, if_pos h]
  rfl

theorem run_of_known (hchain : visit.path ∉ visit.chain)
    (hknown : t.graph.contains visit.path = true) :
    run fs overrides (visit :: agenda) t = run fs overrides agenda t := by
  rw [run_cons, if_neg hchain, if_pos hknown]

theorem run_of_failed {e : SyntaxError} (hchain : visit.path ∉ visit.chain)
    (hnew : t.graph.contains visit.path = false) (hanswer : t.answer fs overrides visit = .error e) :
    run fs overrides (visit :: agenda) t = (.error e, t) := by
  unfold answer at hanswer
  rw [run_cons, if_neg hchain, if_neg (by simp [hnew]), Workspace.load_eq, hanswer]
  rfl

theorem run_of_entered (hchain : visit.path ∉ visit.chain)
    (hnew : t.graph.contains visit.path = false) (hanswer : t.answer fs overrides visit = .ok sheet) :
    run fs overrides (visit :: agenda) t =
      run fs overrides (onward visit sheet ++ agenda) (t.visited visit.path sheet) := by
  unfold answer at hanswer
  rw [run_cons, if_neg hchain, if_neg (by simp [hnew]), Workspace.load_eq, hanswer]
  rfl

theorem unvisited_visited_lt (hnew : t.graph.contains visit.path = false)
    (hanswer : t.answer fs overrides visit = .ok sheet) :
    (t.visited visit.path sheet).unvisited fs < t.unvisited fs := by
  unfold answer at hanswer
  have hload : t.workspace.load fs overrides visit.path (visit.site.getD ⟨1, none⟩) =
      .ok (sheet, t.workspace.keep visit.path sheet) := by
    rw [Workspace.load_eq, hanswer]
    rfl
  exact unvisited_enter_lt hload hnew

/-- What holds of an agenda if it holds of all with fewer unvisited stylesheets, and of all shorter
ones with no more of them, holds of every agenda. -/
theorem agenda_induction (fs : FileSystem) {P : List Visit → Traversal → Prop}
    (step : ∀ agenda t,
      (∀ other t', t'.unvisited fs < t.unvisited fs ∨
        t'.unvisited fs = t.unvisited fs ∧ other.length < agenda.length → P other t') →
      P agenda t) (agenda : List Visit) (t : Traversal) : P agenda t :=
  step agenda t fun other t' _ => agenda_induction fs step other t'
termination_by (t.unvisited fs, agenda.length)
decreasing_by
  rename_i h
  rcases h with h | ⟨heq, h⟩
  · exact Prod.Lex.left _ _ h
  · rw [heq]
    exact Prod.Lex.right _ h

/-- No run leaves more stylesheets unvisited. -/
theorem unvisited_run_le (agenda : List Visit) (t : Traversal) :
    (run fs overrides agenda t).2.unvisited fs ≤ t.unvisited fs := by
  induction agenda, t using agenda_induction fs with
  | step agenda t ih =>
    cases agenda with
    | nil => exact Nat.le_refl _
    | cons visit agenda =>
      by_cases hchain : visit.path ∈ visit.chain
      · rw [run_of_circle hchain]
        exact ih agenda _ (.inr ⟨rfl, Nat.lt_succ_self _⟩)
      · cases hnew : t.graph.contains visit.path with
        | true =>
          rw [run_of_known hchain hnew]
          exact ih agenda t (.inr ⟨rfl, Nat.lt_succ_self _⟩)
        | false =>
          cases hanswer : t.answer fs overrides visit with
          | error e => exact Nat.le_of_eq (by rw [run_of_failed hchain hnew hanswer])
          | ok sheet =>
            have hlt := unvisited_visited_lt hnew hanswer
            rw [run_of_entered hchain hnew hanswer]
            exact Nat.le_trans (ih _ _ (.inl hlt)) (Nat.le_of_lt hlt)

/-- The visits at the front of an agenda come to an end before the others start, which are not made
if those in front fail. -/
theorem run_append (front back : List Visit) (t : Traversal) :
    run fs overrides (front ++ back) t =
      match run fs overrides front t with
      | (.ok _, middle) => run fs overrides back middle
      | (.error e, middle) => (.error e, middle) := by
  induction front, t using agenda_induction fs with
  | step front t ih =>
    cases front with
    | nil => rfl
    | cons visit front =>
      rw [List.cons_append]
      by_cases hchain : visit.path ∈ visit.chain
      · rw [run_of_circle hchain, run_of_circle hchain]
        exact ih front _ (.inr ⟨rfl, Nat.lt_succ_self _⟩)
      · cases hnew : t.graph.contains visit.path with
        | true =>
          rw [run_of_known hchain hnew, run_of_known hchain hnew]
          exact ih front t (.inr ⟨rfl, Nat.lt_succ_self _⟩)
        | false =>
          cases hanswer : t.answer fs overrides visit with
          | error e => rw [run_of_failed hchain hnew hanswer, run_of_failed hchain hnew hanswer]
          | ok sheet =>
            -- the imports of the stylesheet join the visits in front
            rw [run_of_entered hchain hnew hanswer, run_of_entered hchain hnew hanswer,
              ← List.append_assoc]
            exact ih _ _ (.inl (unvisited_visited_lt hnew hanswer))

/-! ## The recursion -/

/-- The recursion of a traversal over an agenda: a stylesheet on its own chain is noticed, one that
has been visited is skipped, and any other is looked up and visited, and then its imports, before
the rest of the agenda. A failure ends all of it. -/
inductive Visits (fs : FileSystem) (overrides : Overrides) :
    List Visit → Traversal → Except SyntaxError Unit → Traversal → Prop where
  | done {t : Traversal} : Visits fs overrides [] t (.ok ()) t
  | circle {visit : Visit} {agenda : List Visit} {t final : Traversal}
    {result : Except SyntaxError Unit} (hchain : visit.path ∈ visit.chain)
    (hrest : Visits fs overrides agenda (t.circled visit) result final) :
    Visits fs overrides (visit :: agenda) t result final
  | known {visit : Visit} {agenda : List Visit} {t final : Traversal}
    {result : Except SyntaxError Unit} (hchain : visit.path ∉ visit.chain)
    (hknown : t.graph.contains visit.path = true)
    (hrest : Visits fs overrides agenda t result final) :
    Visits fs overrides (visit :: agenda) t result final
  | failed {visit : Visit} {agenda : List Visit} {t : Traversal} {e : SyntaxError}
    (hchain : visit.path ∉ visit.chain) (hnew : t.graph.contains visit.path = false)
    (hanswer : t.answer fs overrides visit = .error e) :
    Visits fs overrides (visit :: agenda) t (.error e) t
  | entered {visit : Visit} {agenda : List Visit} {t middle final : Traversal} {sheet : Sheet}
    {result : Except SyntaxError Unit} (hchain : visit.path ∉ visit.chain)
    (hnew : t.graph.contains visit.path = false) (hanswer : t.answer fs overrides visit = .ok sheet)
    (hinner : Visits fs overrides (onward visit sheet) (t.visited visit.path sheet) (.ok ()) middle)
    (hrest : Visits fs overrides agenda middle result final) :
    Visits fs overrides (visit :: agenda) t result final
  | stopped {visit : Visit} {agenda : List Visit} {t final : Traversal} {sheet : Sheet}
    {e : SyntaxError} (hchain : visit.path ∉ visit.chain)
    (hnew : t.graph.contains visit.path = false) (hanswer : t.answer fs overrides visit = .ok sheet)
    (hinner : Visits fs overrides (onward visit sheet) (t.visited visit.path sheet) (.error e) final) :
    Visits fs overrides (visit :: agenda) t (.error e) final

/-- The recursion comes to an end, with what the traversal gives. -/
theorem visits_run (agenda : List Visit) (t : Traversal) :
    Visits fs overrides agenda t (run fs overrides agenda t).1 (run fs overrides agenda t).2 := by
  induction agenda, t using agenda_induction fs with
  | step agenda t ih =>
    cases agenda with
    | nil => exact .done
    | cons visit agenda =>
      by_cases hchain : visit.path ∈ visit.chain
      · rw [run_of_circle hchain]
        exact .circle hchain (ih agenda _ (.inr ⟨rfl, Nat.lt_succ_self _⟩))
      · cases hnew : t.graph.contains visit.path with
        | true =>
          rw [run_of_known hchain hnew]
          exact .known hchain hnew (ih agenda t (.inr ⟨rfl, Nat.lt_succ_self _⟩))
        | false =>
          cases hanswer : t.answer fs overrides visit with
          | error e =>
            rw [run_of_failed hchain hnew hanswer]
            exact .failed hchain hnew hanswer
          | ok sheet =>
            -- the imports leave fewer unvisited, and the rest of the agenda starts from there
            have hlt := unvisited_visited_lt hnew hanswer
            have hinner := ih (onward visit sheet) (t.visited visit.path sheet) (.inl hlt)
            have hle : (run fs overrides (onward visit sheet) (t.visited visit.path sheet)).2.unvisited
                fs ≤ (t.visited visit.path sheet).unvisited fs :=
              unvisited_run_le _ _
            rw [run_of_entered hchain hnew hanswer, run_append]
            cases hrun : run fs overrides (onward visit sheet) (t.visited visit.path sheet) with
            | mk result middle =>
              rw [hrun] at hinner hle
              cases result with
              | error e => exact .stopped hchain hnew hanswer hinner
              | ok u =>
                have hrest := ih agenda middle (.inl (Nat.lt_of_le_of_lt hle hlt))
                exact .entered hchain hnew hanswer hinner hrest

/-- The recursion has no other outcome than the traversal. -/
theorem Visits.run_eq {result : Except SyntaxError Unit}
    (h : Visits fs overrides agenda t result final) :
    run fs overrides agenda t = (result, final) := by
  induction h with
  | done => rfl
  | circle hchain _ ih => rw [run_of_circle hchain, ih]
  | known hchain hknown _ ih => rw [run_of_known hchain hknown, ih]
  | failed hchain hnew hanswer => exact run_of_failed hchain hnew hanswer
  | entered hchain hnew hanswer _ _ ihInner ihRest =>
    rw [run_of_entered hchain hnew hanswer, run_append, ihInner]
    exact ihRest
  | stopped hchain hnew hanswer _ ihInner =>
    rw [run_of_entered hchain hnew hanswer, run_append, ihInner]

end Stylesheet.Traversal
