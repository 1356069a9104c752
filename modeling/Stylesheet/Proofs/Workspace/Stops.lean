import Stylesheet.Proofs.Document.Failures
import Stylesheet.Proofs.Workspace.Blame

/-!
# Where an exploration stops

An exploration that fails has stopped at one visit: at a stylesheet that cannot be read, or at one
with something wrong in its text. The error says which, and where.

- `Document.site_of_error`: the error of a document is on one of its lines that are not blank.
- `Traversal.Step`: one visit that does not fail, with what it leaves to be visited. A traversal
  makes one step after the other (`Step.unique`, `Step.run_eq`), and fails just where it comes to a
  visit that fails (`run_eq_error_iff`).
- `Traversal.Underway`: what every step keeps: the visits to be made are those of the entry and of
  imports of stylesheets that have been visited (`Underway.step`, `Underway.steps`).
- `SyntaxError.Unread`, `SyntaxError.Faulty`: the two kinds of errors of a visit.
- `Workspace.stop_of_explore`: the error of an exploration is that of the visit at which it stops.
-/

namespace Stylesheet

open Parsing

/-! ## Errors of a document -/

namespace Document

/-- The error of a document names its file and one of its lines that are not blank. -/
theorem site_of_error {fs : FileSystem} {overrides : Overrides} {source : Text} {e : SyntaxError}
    (h : parse fs overrides source = .error e) :
    ∃ (position : Nat) (physical : PhysicalLine),
      (PhysicalLine.ofSource source)[position]? = some physical ∧ physical.isBlank = false ∧
        e.site = ⟨Number.plus overrides.resolve.firstLine position, overrides.filename⟩ := by
  obtain ⟨result, final, calls, hruns, hplain, -⟩ :=
    runs_of_parseWith (.standard fs) overrides source ()
  have hclosed : ((parseWith (.standard fs) overrides source).outcome ()).1 = .error e := h
  rw [hplain] at hclosed
  exact site_of_runs hruns hclosed

end Document

/-! ## The steps of a traversal -/

namespace Traversal

variable {fs : FileSystem} {overrides : Overrides} {origin : Workspace} {entry : Text}
  {visit : Visit} {agenda rest : List Visit} {t final : Traversal} {e : SyntaxError}

/-- The first visit of an agenda is made, and does not fail. What it leaves are the other visits,
and the imports of a stylesheet that is new in front of them. -/
inductive Step (fs : FileSystem) (overrides : Overrides) :
    List Visit × Traversal → List Visit × Traversal → Prop where
  | circle {visit : Visit} {agenda : List Visit} {t : Traversal} (hchain : visit.path ∈ visit.chain) :
    Step fs overrides (visit :: agenda, t) (agenda, t.circled visit)
  | known {visit : Visit} {agenda : List Visit} {t : Traversal} (hchain : visit.path ∉ visit.chain)
    (hknown : t.graph.contains visit.path = true) :
    Step fs overrides (visit :: agenda, t) (agenda, t)
  | entered {visit : Visit} {agenda : List Visit} {t : Traversal} {sheet : Sheet}
    (hchain : visit.path ∉ visit.chain) (hnew : t.graph.contains visit.path = false)
    (hanswer : t.answer fs overrides visit = .ok sheet) :
    Step fs overrides (visit :: agenda, t)
      (onward visit sheet ++ agenda, t.visited visit.path sheet)

/-- A number of steps. -/
abbrev Steps (fs : FileSystem) (overrides : Overrides) :
    List Visit × Traversal → List Visit × Traversal → Prop :=
  Relation.ReflTransGen (Step fs overrides)

variable {now next other : List Visit × Traversal}

theorem Step.run_eq (h : Step fs overrides now next) :
    run fs overrides now.1 now.2 = run fs overrides next.1 next.2 := by
  cases h with
  | circle hchain => exact run_of_circle hchain
  | known hchain hknown => exact run_of_known hchain hknown
  | entered hchain hnew hanswer => exact run_of_entered hchain hnew hanswer

theorem Steps.run_eq (h : Steps fs overrides now next) :
    run fs overrides now.1 now.2 = run fs overrides next.1 next.2 := by
  induction h with
  | refl => rfl
  | tail _ hstep ih => exact ih.trans hstep.run_eq

/-- There is one way to go on. -/
theorem Step.unique (h : Step fs overrides now next) (h' : Step fs overrides now other) :
    next = other := by
  cases h with
  | circle hchain =>
    cases h' with
    | circle => rfl
    | known hother | entered hother => exact absurd hchain hother
  | known hchain hknown =>
    cases h' with
    | circle hother => exact absurd hother hchain
    | known => rfl
    | entered _ hnew => exact absurd (hknown.symm.trans hnew) Bool.noConfusion
  | entered hchain hnew hanswer =>
    cases h' with
    | circle hother => exact absurd hother hchain
    | known _ hknown => exact absurd (hnew.symm.trans hknown) Bool.noConfusion
    | entered _ _ hanswer' =>
      cases hanswer.symm.trans hanswer'
      rfl

/-- The first visit of an agenda fails: it is made to a new stylesheet, of which nothing can be
had. -/
structure Fails (fs : FileSystem) (overrides : Overrides) (t : Traversal) (visit : Visit)
    (e : SyntaxError) : Prop where
  unchained : visit.path ∉ visit.chain
  new : t.graph.contains visit.path = false
  answer : t.answer fs overrides visit = .error e

/-- Where a visit fails, no step goes on. -/
theorem Fails.not_step (h : t.Fails fs overrides visit e) :
    ¬Step fs overrides (visit :: agenda, t) next := by
  rintro (hchain | ⟨-, hknown⟩ | ⟨-, -, hanswer⟩)
  · exact h.unchained hchain
  · exact absurd (h.new.symm.trans hknown) Bool.noConfusion
  · exact absurd (h.answer.symm.trans hanswer) nofun

/-- A traversal fails just if its steps come to a visit that fails, and with the error of this
visit. -/
theorem run_eq_error_iff :
    run fs overrides agenda t = (.error e, final) ↔
      ∃ visit rest, Steps fs overrides (agenda, t) (visit :: rest, final) ∧
        final.Fails fs overrides visit e := by
  constructor
  · intro h
    induction agenda, t using agenda_induction fs with
    | step agenda t ih =>
      cases agenda with
      | nil =>
        rw [run_nil] at h
        cases h
      | cons visit agenda =>
        -- the first visit is a step to an agenda for which the same holds, or it fails
        have honward : ∀ next : List Visit × Traversal,
            Step fs overrides (visit :: agenda, t) next →
            next.2.unvisited fs < t.unvisited fs ∨
              next.2.unvisited fs = t.unvisited fs ∧ next.1.length < (visit :: agenda).length →
            ∃ last rest, Steps fs overrides (visit :: agenda, t) (last :: rest, final) ∧
              final.Fails fs overrides last e := by
          intro next hstep hless
          obtain ⟨last, rest, hsteps, hfails⟩ := ih next.1 next.2 hless (hstep.run_eq.symm.trans h)
          exact ⟨last, rest, .head hstep hsteps, hfails⟩
        by_cases hchain : visit.path ∈ visit.chain
        · exact honward _ (.circle hchain) (.inr ⟨rfl, Nat.lt_succ_self _⟩)
        · cases hnew : t.graph.contains visit.path with
          | true => exact honward _ (.known hchain hnew) (.inr ⟨rfl, Nat.lt_succ_self _⟩)
          | false =>
            cases hanswer : t.answer fs overrides visit with
            | error e' =>
              rw [run_of_failed hchain hnew hanswer] at h
              cases h
              exact ⟨visit, agenda, .refl, hchain, hnew, hanswer⟩
            | ok sheet =>
              exact honward _ (.entered hchain hnew hanswer)
                (.inl (unvisited_visited_lt hnew hanswer))
  · rintro ⟨visit, rest, hsteps, hfails⟩
    rw [Steps.run_eq hsteps]
    exact run_of_failed hfails.unchained hfails.new hfails.answer

/-! ## What the steps keep -/

/-- A visit is that of the entry, or that of an import of the stylesheet at the end of its chain,
which has been visited. -/
inductive Comes (entry : Text) (graph : Table Text Sheet) : Visit → Prop where
  | entry : Comes entry graph { path := entry }
  | onward {chain : List Text} {importer : Text} {sheet : Sheet} {imported : Document.SheetImport}
    (hget : graph.get? importer = some sheet) (himported : imported ∈ sheet.imports) :
    Comes entry graph ⟨imported.path, chain ++ [importer], some imported.site⟩

/-- A traversal on its way, with the visits that it still has to make. -/
structure Underway (fs : FileSystem) (overrides : Overrides) (origin : Workspace) (entry : Text)
    (now : List Visit × Traversal) : Prop where
  faithful : Faithful fs overrides origin now.2
  comes : ∀ visit ∈ now.1, Comes entry now.2.graph visit

theorem underway_start (origin : Workspace) (entry : Text) :
    Underway fs overrides origin entry ([{ path := entry }], { workspace := origin }) where
  faithful := faithful_start origin
  comes := List.forall_mem_singleton.mpr .entry

/-- One more stylesheet is visited, and all that were before still are. -/
theorem Comes.visited {sheet : Sheet} {path : Text} (h : Comes entry t.graph visit)
    (hnew : t.graph.contains path = false) : Comes entry (t.visited path sheet).graph visit := by
  cases h with
  | entry => exact .entry
  | @onward _ importer _ _ hget himported =>
    refine .onward ?_ himported
    have hne : path ≠ importer := by
      rintro rfl
      exact Table.not_mem_keys_of_contains hnew (Table.mem_keys_of_get? hget)
    rw [get?_visited, if_neg hne, hget]

theorem Underway.step (h : Underway fs overrides origin entry now) (hstep : Step fs overrides now next) :
    Underway fs overrides origin entry next := by
  cases hstep with
  | @circle visit =>
    exact ⟨h.faithful.circled visit, fun other hother => h.comes other (List.mem_cons_of_mem _ hother)⟩
  | known => exact ⟨h.faithful, fun other hother => h.comes other (List.mem_cons_of_mem _ hother)⟩
  | entered _ hnew hanswer =>
    refine ⟨h.faithful.visited hanswer, fun other hother => ?_⟩
    rcases List.mem_append.mp hother with hother | hother
    · obtain ⟨imported, himported, rfl⟩ := List.mem_map.mp hother
      refine .onward ?_ himported
      rw [get?_visited, if_pos rfl]
    · exact (h.comes other (List.mem_cons_of_mem _ hother)).visited hnew

theorem Underway.steps (h : Underway fs overrides origin entry now)
    (hsteps : Steps fs overrides now next) : Underway fs overrides origin entry next := by
  induction hsteps with
  | refl => exact h
  | tail _ hstep ih => exact ih.step hstep

end Traversal

/-! ## Errors of a visit -/

namespace SyntaxError

/-- The error says that the stylesheet of a visit cannot be read. It is on the import that the visit
follows, or on the first line of no file where the visit follows none. -/
structure Unread (fs : FileSystem) (visit : Visit) (e : SyntaxError) : Prop where
  unread : fs.read? visit.path = none
  message : e.message = "Could not read file: " ++ visit.path
  site : e.site = visit.site.getD ⟨1, none⟩

/-- The error is that of the text of the stylesheet at a path. It names this file, and one of its
lines that are not blank, counted from 1. -/
structure Faulty (fs : FileSystem) (overrides : Overrides) (path : Text) (e : SyntaxError) : Prop where
  textual : e.cause.isTextual = true
  filename : e.site.filename = some path
  line : ∃ source, fs.read? path = some source ∧
    Document.parse fs { overrides with filename := some path, line := none } source = .error e ∧
    ∃ (position : Nat) (physical : PhysicalLine),
      (PhysicalLine.ofSource source)[position]? = some physical ∧ physical.isBlank = false ∧
        e.site.line = Number.plus 1 position ∧
        (position < Number.exactBound → e.site.line = position + 1)

variable {fs : FileSystem} {overrides : Overrides} {visit : Visit} {path : Text} {e : SyntaxError}

theorem faulty_of_readSheet {source : Text} (hread : fs.read? path = some source)
    (h : Workspace.readSheet fs overrides path source = .error e) : e.Faulty fs overrides path := by
  obtain ⟨htextual, hname⟩ := Document.error_of_parse h
  obtain ⟨position, physical, hposition, hblank, hsite⟩ := Document.site_of_error h
  have hline : e.site.line = Number.plus 1 position := congrArg Site.line hsite
  refine ⟨htextual, hname, source, hread, h, position, physical, hposition, hblank, hline, ?_⟩
  intro hsmall
  rw [hline, Number.plus_of_natAbs_le (by omega), Int.add_comm]

theorem Unread.not_faulty (h : e.Unread fs visit) : ¬e.Faulty fs overrides visit.path := by
  intro hfaulty
  obtain ⟨source, hread, -⟩ := hfaulty.line
  cases h.unread.symm.trans hread

end SyntaxError

namespace Workspace

variable {fs : FileSystem} {overrides : Overrides} {workspace : Workspace} {entry : Text}
  {e : SyntaxError}

/-- An exploration that fails has gone, step by step, up to a visit at which no step goes on. The
stylesheet of this visit is not held, and the error is one of two kinds: either the stylesheet
cannot be read, and the error names it, on the import that the visit follows (or on line 1 of no
file for the entry); or its text is faulty, and the error names its file and one of its lines that
are not blank, counted from 1. What an importing stylesheet is called appears in the first case
only. If nothing was held at the start, only the entry cannot be read. -/
theorem stop_of_explore (h : (workspace.explore fs overrides entry).result = .error e) :
    ∃ visit rest final,
      Traversal.Steps fs overrides ([{ path := fs.resolve entry }], { workspace }) (visit :: rest, final) ∧
      (∀ next, ¬Traversal.Step fs overrides (visit :: rest, final) next) ∧
      (workspace.explore fs overrides entry).workspace = final.workspace ∧
      Traversal.Comes (fs.resolve entry) final.graph visit ∧
      workspace.sheets.get? visit.path = none ∧
      (e.Unread fs visit ∨ e.Faulty fs overrides visit.path) ∧
      ¬(e.Unread fs visit ∧ e.Faulty fs overrides visit.path) ∧
      (workspace.sheets = .empty → e.Unread fs visit → visit = { path := fs.resolve entry }) := by
  have hresult : (Traversal.run fs overrides [{ path := fs.resolve entry }] { workspace }).1 =
      .error e := map_eq_error.mp h
  obtain ⟨visit, rest, hsteps, hfails⟩ := Traversal.run_eq_error_iff.mp (Prod.ext hresult rfl)
  have hunderway := (Traversal.underway_start workspace (fs.resolve entry)).steps hsteps
  have hcomes := hunderway.comes visit List.mem_cons_self
  -- the answer to the visit is the one that the workspace had at the start
  have hlookup : workspace.lookup fs overrides visit.path (visit.site.getD ⟨1, none⟩) = .error e := by
    rw [← hunderway.faithful.answers]
    exact hfails.answer
  refine ⟨visit, rest, _, hsteps, fun next => hfails.not_step, rfl, hcomes, ?_, ?_,
    fun hboth => hboth.1.not_faulty hboth.2, ?_⟩
  · cases hheld : workspace.sheets.get? visit.path with
    | none => rfl
    | some sheet =>
      rw [lookup_of_get? hheld] at hlookup
      cases hlookup
  · unfold lookup at hlookup
    split at hlookup
    · cases hlookup
    · split at hlookup
      · rename_i hread
        cases hlookup
        exact .inl ⟨hread, rfl, rfl⟩
      · rename_i source hread
        exact .inr (SyntaxError.faulty_of_readSheet hread hlookup)
  · intro hempty hunread
    cases hcomes with
    | entry => rfl
    | onward hget himported =>
      -- its importer was read, so that the import was found where it can be read
      have himporter := hunderway.faithful.lookup_of_get? hget ⟨1, none⟩
      rcases lookup_eq_ok.mp himporter with hheld | ⟨-, source, -, hparse⟩
      · rw [hempty] at hheld
        cases hheld
      · have hserves := Document.serves_of_mem_imports hparse _ himported
        obtain ⟨content, hcontent⟩ := FileSystem.isReadable_iff.mp hserves.readable
        cases hunread.unread.symm.trans hcontent

/-- Two stylesheets of which one imports the other, whose last line is an alternative branch of
nothing. -/
def faultyFiles : FileSystem where
  working := ['/']
  entries := .insert (.insert .empty "/main.terrace" (.file "a\n@import part")) "/part.terrace"
    (.file "b\n\n@else")

/-- The same with the imported stylesheet gone. -/
def missingFiles : FileSystem := faultyFiles.remove "/part.terrace"

/-- An import with something wrong in it, and one that is held to be there and is gone. -/
theorem stop_of_broken_imports :
    (∃ visit rest final e,
      (empty.explore faultyFiles { filename := some "x", line := some 7 } "main.terrace").result =
        .error e ∧
      Traversal.Steps faultyFiles { filename := some "x", line := some 7 }
        ([{ path := "/main.terrace" }], { workspace := empty }) (visit :: rest, final) ∧
      visit.path = "/part.terrace" ∧ e.site = ⟨3, some "/part.terrace"⟩ ∧
      e.Faulty faultyFiles { filename := some "x", line := some 7 } visit.path) ∧
    ∃ visit rest final e,
      ((empty.explore faultyFiles {} "main.terrace").workspace.explore missingFiles {}
        "main.terrace").result = .error e ∧
      Traversal.Steps missingFiles {}
        ([{ path := "/main.terrace" }],
          { workspace := (empty.explore faultyFiles {} "main.terrace").workspace })
        (visit :: rest, final) ∧
      visit.path = "/part.terrace" ∧ e.site = ⟨2, some "/main.terrace"⟩ ∧
      e.Unread missingFiles visit := by
  have hentry : faultyFiles.resolve "main.terrace" = ("/main.terrace" : Text) := by decide +kernel
  have hfaulty : (empty.explore faultyFiles { filename := some "x", line := some 7 }
      "main.terrace").result.map Table.keys =
        .error ⟨.misplacedElse, ⟨3, some "/part.terrace"⟩⟩ := by
    decide +kernel
  have hmissing : ((empty.explore faultyFiles {} "main.terrace").workspace.explore missingFiles {}
      "main.terrace").result.map Table.keys =
        .error ⟨.unreadable "/part.terrace", ⟨2, some "/main.terrace"⟩⟩ := by
    decide +kernel
  constructor
  · have hresult := map_eq_error.mp hfaulty
    obtain ⟨visit, rest, final, hsteps, -, -, -, -, hkind, -, -⟩ := stop_of_explore hresult
    rw [hentry] at hsteps
    rcases hkind with hunread | hkind
    · have hfirst : some '@' = some 'C' := congrArg List.head? hunread.message
      exact absurd hfirst (by decide)
    · exact ⟨visit, rest, final, _, hresult, hsteps, (Option.some.inj hkind.filename).symm, rfl, hkind⟩
  · have hresult := map_eq_error.mp hmissing
    obtain ⟨visit, rest, final, hsteps, -, -, -, -, hkind, -, -⟩ := stop_of_explore hresult
    rw [show missingFiles.resolve "main.terrace" = ("/main.terrace" : Text) from hentry] at hsteps
    rcases hkind with hkind | hfaulty
    · exact ⟨visit, rest, final, _, hresult, hsteps,
        (List.append_cancel_left hkind.message).symm, rfl, hkind⟩
    · cases hfaulty.textual

end Workspace

end Stylesheet
