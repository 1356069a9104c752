import Stylesheet.Proofs.Workspace.Reachability

/-!
# Explorations that cannot be told apart

What an exploration gives depends on nothing but the stylesheets that it finds. Two workspaces, over
two file systems, may hold different stylesheets, and still give the same.

- `Workspace.Agree`: two workspaces give the same answers at the paths of a set that no import
  leaves.
- `Traversal.Alike`, `visits_of_agree`: two traversals that have come equally far over such
  workspaces take the same course from there.
- `Workspace.explore_congr`: and explorations give the same results and notices.
-/

namespace Stylesheet

variable {fs fs' : FileSystem} {overrides : Overrides} {workspace workspace' : Workspace}
  {S : Text → Prop}

/-- Two workspaces give the same answers at the paths of a set, and no import leads out of it. -/
structure Workspace.Agree (fs fs' : FileSystem) (overrides : Overrides)
    (workspace workspace' : Workspace) (S : Text → Prop) : Prop where
  answers : ∀ path, S path → ∀ site,
    workspace.lookup fs overrides path site = workspace'.lookup fs' overrides path site
  confined : workspace.Confined fs overrides S

namespace Traversal

variable {visit : Visit} {agenda : List Visit} {t t' final : Traversal} {sheet : Sheet}
  {result : Except SyntaxError Unit}

/-- Two traversals have visited and noticed the same, each faithful to a workspace of its own. -/
structure Alike (fs fs' : FileSystem) (overrides : Overrides) (workspace workspace' : Workspace)
    (t t' : Traversal) : Prop where
  faithful : Faithful fs overrides workspace t
  faithful' : Faithful fs' overrides workspace' t'
  graph : t'.graph = t.graph
  notices : t'.notices = t.notices

theorem Alike.circled (h : Alike fs fs' overrides workspace workspace' t t') (visit : Visit) :
    Alike fs fs' overrides workspace workspace' (t.circled visit) (t'.circled visit) :=
  ⟨h.faithful.circled visit, h.faithful'.circled visit, h.graph, congrArg (· ++ _) h.notices⟩

theorem Alike.visited (h : Alike fs fs' overrides workspace workspace' t t')
    (hanswer : t.answer fs overrides visit = .ok sheet)
    (hanswer' : t'.answer fs' overrides visit = .ok sheet) :
    Alike fs fs' overrides workspace workspace' (t.visited visit.path sheet)
      (t'.visited visit.path sheet) :=
  ⟨h.faithful.visited hanswer, h.faithful'.visited hanswer',
    congrArg (·.insert visit.path sheet) h.graph, h.notices⟩

/-- Each of them gives the answers of its workspace, and these agree. -/
theorem Alike.answer_eq (h : Alike fs fs' overrides workspace workspace' t t')
    (hagree : workspace.Agree fs fs' overrides workspace' S) (hvisit : S visit.path) :
    t'.answer fs' overrides visit = t.answer fs overrides visit := by
  unfold answer
  rw [h.faithful.answers, h.faithful'.answers, hagree.answers _ hvisit]

/-- A traversal takes the same course over a workspace that agrees with its own. -/
theorem visits_of_agree (hagree : workspace.Agree fs fs' overrides workspace' S)
    (h : Visits fs overrides agenda t result final)
    (halike : Alike fs fs' overrides workspace workspace' t t')
    (hagenda : ∀ visit ∈ agenda, S visit.path) :
    ∃ final', Visits fs' overrides agenda t' result final' ∧
      Alike fs fs' overrides workspace workspace' final final' := by
  induction h generalizing t' with
  | done => exact ⟨t', .done, halike⟩
  | @circle visit _ _ _ _ hchain _ ih =>
    obtain ⟨-, hagenda⟩ := List.forall_mem_cons.mp hagenda
    obtain ⟨final', hrest, hfinal⟩ := ih (halike.circled visit) hagenda
    exact ⟨final', .circle hchain hrest, hfinal⟩
  | known hchain hknown _ ih =>
    obtain ⟨-, hagenda⟩ := List.forall_mem_cons.mp hagenda
    obtain ⟨final', hrest, hfinal⟩ := ih halike hagenda
    exact ⟨final', .known hchain (by rw [halike.graph, hknown]) hrest, hfinal⟩
  | failed hchain hnew hanswer =>
    obtain ⟨hvisit, -⟩ := List.forall_mem_cons.mp hagenda
    have hanswer' := (halike.answer_eq hagree hvisit).trans hanswer
    exact ⟨t', .failed hchain (by rw [halike.graph, hnew]) hanswer', halike⟩
  | entered hchain hnew hanswer _ _ ihInner ihRest =>
    obtain ⟨hvisit, hagenda⟩ := List.forall_mem_cons.mp hagenda
    have hanswer' := (halike.answer_eq hagree hvisit).trans hanswer
    obtain ⟨middle', hinner, hmiddle⟩ := ihInner (halike.visited hanswer hanswer')
      (mem_of_mem_onward hagree.confined halike.faithful hvisit hanswer)
    obtain ⟨final', hrest, hfinal⟩ := ihRest hmiddle hagenda
    exact ⟨final', .entered hchain (by rw [halike.graph, hnew]) hanswer' hinner hrest, hfinal⟩
  | stopped hchain hnew hanswer _ ihInner =>
    obtain ⟨hvisit, -⟩ := List.forall_mem_cons.mp hagenda
    have hanswer' := (halike.answer_eq hagree hvisit).trans hanswer
    obtain ⟨final', hinner, hfinal⟩ := ihInner (halike.visited hanswer hanswer')
      (mem_of_mem_onward hagree.confined halike.faithful hvisit hanswer)
    exact ⟨final', .stopped hchain (by rw [halike.graph, hnew]) hanswer' hinner, hfinal⟩

end Traversal

namespace Workspace

/-- Explorations of workspaces that agree give the same result and the same notices. -/
theorem explore_congr (hagree : workspace.Agree fs fs' overrides workspace' S)
    (hworking : fs.working = fs'.working) (entry : Text) (hentry : S (fs.resolve entry)) :
    (workspace.explore fs overrides entry).result =
        (workspace'.explore fs' overrides entry).result ∧
      (workspace.explore fs overrides entry).notices =
        (workspace'.explore fs' overrides entry).notices := by
  have hresolve : fs'.resolve entry = fs.resolve entry := by
    unfold FileSystem.resolve
    rw [hworking]
  obtain ⟨result, final, hvisits, hexplore⟩ := explore_visits fs overrides workspace entry
  obtain ⟨final', hvisits', hfinal⟩ := Traversal.visits_of_agree hagree hvisits
    ⟨Traversal.faithful_start workspace, Traversal.faithful_start workspace', rfl, rfl⟩
    (List.forall_mem_singleton.mpr hentry)
  have hexplore' : workspace'.explore fs' overrides entry =
      ⟨result.map fun _ => final'.graph, final'.workspace, final'.notices⟩ := by
    unfold explore
    rw [hresolve, hvisits'.run_eq]
  rw [hexplore, hexplore', hfinal.graph, hfinal.notices]
  exact ⟨rfl, rfl⟩

end Workspace

end Stylesheet
