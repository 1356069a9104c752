import Stylesheet.Proofs.Server.Freshness
import Stylesheet.Proofs.Workspace.Snapshot

/-!
# No module outlives an edit

A module that has been handed out stays right until a file that it is made of is edited, and then it
is among those that the server calls out of date, whatever has been asked for in between.

- `Server.sources`, `Server.importersOf`: the files that a module is made of, and the stylesheets
  that a change is said to concern.
- `Project.Spares`, `Event.Leaves`: events that do not concern a stylesheet, or edit none of some
  files.
- `Project.Follows`: the invariant behind a module: the server still notes the imports between its
  stylesheets, and other requests note them again as long as the files stay (`Follows.next`).
- `unchanged_or_unnoticed`, `follows_of_leaves`, `follows_of_quiet`: what the runs behind a request
  preserve.
- `Project.module_stays_or_is_invalidated`: what follows for the module.
-/

namespace Stylesheet

open Server (withoutQuery)

variable {overrides : Overrides} {style : Option Text} {loadPaths : Option (List Text)}

/-! ## Changes -/

namespace Server

variable {fs : FileSystem} {server : Server} {code id file consumer text : Text}

/-- The files that the module for an address is made of. -/
def sources (fs : FileSystem) (server : Server) (code id : Text) : List Text :=
  match server.workspace.moduleGraph fs server.overrides code (withoutQuery id) with
  | .error _ => []
  | .ok graph => graph.keys

/-- The stylesheets that a change of a file is said to concern. -/
def importersOf (fs : FileSystem) (server : Server) (file : Text) : List Text :=
  if isSheet (withoutQuery file) then
    (server.workspace.forget fs (some (withoutQuery file))).dependents fs (withoutQuery file)
  else []

/-- The modules out of date are those of the stylesheets that the change concerns. -/
theorem update_answer {α : Type} [DecidableEq α] (modules : List α) (modulesOf : Text → List α) :
    (server.update fs file modules modulesOf).1 =
      if (server.importersOf fs file).isEmpty then none
      else
        some ⟨(modules ++ (server.importersOf fs file).flatMap modulesOf).eraseDups,
          (server.importersOf fs file).flatMap modulesOf⟩ := by
  cases hsheet : isSheet (withoutQuery file) with
  | false =>
    have hnone : server.importersOf fs file = [] := by
      unfold importersOf
      rw [hsheet]
      rfl
    rw [update_of_not_isSheet hsheet, hnone]
    rfl
  | true =>
    unfold update importersOf
    dsimp only
    rw [if_pos hsheet, if_pos hsheet]

/-- A change concerns the others from which the file is noted to be reached. -/
theorem mem_importersOf_iff (hsheet : isSheet (withoutQuery file) = true) :
    consumer ∈ server.importersOf fs file ↔
      consumer ≠ fs.resolve (withoutQuery file) ∧
        Reaches server.workspace.noted consumer (fs.resolve (withoutQuery file)) := by
  have hnoted : (server.workspace.forget fs (some (withoutQuery file))).noted =
      server.workspace.noted := by
    funext path
    unfold Workspace.noted
    rw [Workspace.imports_forget]
  unfold importersOf
  rw [if_pos hsheet, Workspace.mem_dependents_iff, hnoted]

theorem mem_importersOf (hsheet : Path.IsSheet (withoutQuery file))
    (habsolute : fs.resolve (withoutQuery file) = withoutQuery file) :
    consumer ∈ server.importersOf fs file ↔
      consumer ≠ withoutQuery file ∧
        Reaches server.workspace.noted consumer (withoutQuery file) := by
  rw [mem_importersOf_iff (isSheet_iff.mpr hsheet), habsolute]

/-- If a change concerns a stylesheet, all modules of this are out of date. -/
theorem update_of_mem_importersOf {α : Type} [DecidableEq α]
    (h : consumer ∈ server.importersOf fs file) (modules : List α) (modulesOf : Text → List α) :
    ∃ invalidation, (server.update fs file modules modulesOf).1 = some invalidation ∧
      ∀ m ∈ modulesOf consumer, m ∈ invalidation.invalidated ∧ m ∈ invalidation.affected := by
  have hsome : ¬(server.importersOf fs file).isEmpty = true := by
    intro hempty
    rw [List.isEmpty_iff.mp hempty] at h
    exact absurd h List.not_mem_nil
  rw [update_answer, if_neg hsome]
  refine ⟨_, rfl, fun m hm => ?_⟩
  have hinvalidated : m ∈ (server.importersOf fs file).flatMap modulesOf :=
    List.mem_flatMap_of_mem h hm
  exact ⟨hinvalidated, List.mem_eraseDups.mpr (List.mem_append_right _ hinvalidated)⟩

theorem emitModule_of_transform (h : (server.transform fs code id).result = .ok (some text)) :
    Path.IsSheet (withoutQuery id) ∧
      (server.workspace.emitModule fs server.overrides code (withoutQuery id)).result = .ok text := by
  cases hsheet : isSheet (withoutQuery id) with
  | false =>
    rw [transform_of_not_isSheet hsheet] at h
    cases h
  | true =>
    refine ⟨isSheet_iff.mp hsheet, ?_⟩
    rw [transform_of_isSheet hsheet] at h
    obtain ⟨text, hresult, hsome⟩ := map_eq_ok.mp h
    cases hsome
    exact hresult

theorem transform_of_emitModule (hsheet : Path.IsSheet (withoutQuery id))
    (h : (server.workspace.emitModule fs server.overrides code (withoutQuery id)).result = .ok text) :
    (server.transform fs code id).result = .ok (some text) := by
  rw [transform_of_isSheet (isSheet_iff.mpr hsheet)]
  exact map_eq_ok.mpr ⟨text, h, rfl⟩

end Server

/-! ## Events that leave a module alone -/

/-- Whether the event is a request. -/
def Event.isRequest : Event → Bool
  | .request _ _ => true
  | .edit _ _ | .notify _ => false

/-- The event edits none of the files. -/
def Event.Leaves (paths : List Text) : Event → Prop
  | .edit path _ => path ∉ paths
  | .request _ _ | .notify _ => True

namespace Project

/-- The event does not tell the server of a change that concerns the stylesheet at a path. -/
def Spares (project : Project) (path : Text) : Event → Prop
  | .notify address =>
    withoutQuery address ≠ path ∧ path ∉ project.server.importersOf project.tree.fs address
  | .request _ _ | .edit _ _ => True

/-- The stylesheet for an address. -/
def sheetAt (project : Project) (id : Text) : Text := project.tree.fs.resolve (withoutQuery id)

/-! ## The invariant behind a module -/

/-- The project has come from one in which a snapshot was taken, and the server still notes the
imports of the snapshot. -/
structure Follows (tree : SourceTree) (overrides : Overrides) (graph : Table Text Sheet)
    (project : Project) : Prop where
  sound : project.Sound overrides
  same : tree.Same project.tree
  notes : project.server.workspace.Notes graph

/-- The files of a graph have the texts that they had in a tree. -/
def Unchanged (tree : SourceTree) (graph : Table Text Sheet) (project : Project) : Prop :=
  ∀ path ∈ graph.keys, tree.text path = project.tree.text path

variable {tree : SourceTree} {graph : Table Text Sheet} {entry id code text : Text}
  {project final : Project} {event : Event} {events : List Event}

/-- Only a request may note other imports, and it does not where the files of the snapshot are
unchanged. -/
theorem Follows.next (h : project.Follows tree overrides graph) (hline : overrides.line = none)
    (hsnapshot : Snapshot tree overrides entry graph) (hallows : project.Allows event)
    (hrequest : event.isRequest = true → Unchanged tree graph project) :
    (project.next event).Follows tree overrides graph := by
  have hsound := h.sound.next hline hallows
  cases event with
  | request code id =>
    refine ⟨hsound, h.same, ?_⟩
    obtain ⟨hnoticed, rfl⟩ := hallows
    have hupToDate := h.sound.upToDate
    rw [hnoticed] at hupToDate
    show (project.server.transform project.tree.fs _ id).workspace.Notes graph
    cases hsheet : Server.isSheet (withoutQuery id) with
    | false =>
      rw [Server.transform_of_not_isSheet hsheet]
      exact h.notes
    | true =>
      rw [Server.transform_of_isSheet hsheet, h.sound.overrides_eq]
      refine h.notes.emitModule hupToDate hline (Server.isSheet_iff.mp hsheet)
        fun path sheet hget => ?_
      rw [← SourceTree.read_congr h.same (hrequest rfl path (Table.mem_keys_of_get? hget))]
      exact hsnapshot.read path sheet hget
  | edit path content => exact ⟨hsound, h.same.trans (project.tree.same_edit path content), h.notes⟩
  | notify address =>
    refine ⟨hsound, h.same, ?_⟩
    show (project.server.update project.tree.fs address ([] : List Text) _).2.workspace.Notes graph
    cases hsheet : Server.isSheet (withoutQuery address) with
    | false =>
      rw [Server.update_of_not_isSheet hsheet]
      exact h.notes
    | true =>
      rw [Server.update_of_isSheet hsheet]
      intro path sheet hget
      rw [Workspace.imports_forget]
      exact h.notes path sheet hget

theorem Unchanged.next (h : Unchanged tree graph project) (hleaves : event.Leaves graph.keys) :
    Unchanged tree graph (project.next event) := by
  cases event with
  | request | notify => exact h
  | edit path content =>
    intro other hmem
    have hne : path ≠ other := by
      rintro rfl
      exact hleaves hmem
    rw [h other hmem]
    exact (if_neg hne).symm

/-- A change of one of its files concerns the entry of a snapshot. -/
theorem Follows.mem_importersOf {address : Text} (h : project.Follows tree overrides graph)
    (hsnapshot : Snapshot tree overrides entry graph) (hmem : withoutQuery address ∈ graph.keys)
    (hne : withoutQuery address ≠ entry) :
    entry ∈ project.server.importersOf project.tree.fs address := by
  rcases hsnapshot.serves hmem with heq | hserves
  · exact absurd heq hne
  · have habsolute : project.tree.fs.resolve (withoutQuery address) = withoutQuery address := by
      rw [← h.same.resolve]
      exact hserves.absolute
    exact (Server.mem_importersOf hserves.isSheet habsolute).mpr
      ⟨hne.symm, h.notes.reaches hsnapshot hmem⟩

/-- A module that is handed out leaves a snapshot for the project to follow. -/
theorem Sound.follows (h : project.Sound overrides) (hline : overrides.line = none)
    (hallows : project.Allows (.request code id))
    (hresult : (project.server.transform project.tree.fs code id).result = .ok (some text)) :
    ∃ graph, project.server.sources project.tree.fs code id = graph.keys ∧
      Snapshot project.tree overrides (project.sheetAt id) graph ∧
      (project.next (.request code id)).Follows project.tree overrides graph := by
  obtain ⟨hid, hmodule⟩ := Server.emitModule_of_transform hresult
  have hsound := h.next hline hallows
  obtain ⟨hnoticed, rfl⟩ := hallows
  have hupToDate := h.upToDate
  rw [hnoticed] at hupToDate
  rw [h.overrides_eq] at hmodule
  obtain ⟨graph, hgraph, hsnapshot, hnotes⟩ := hupToDate.snapshot hline hid hmodule
  refine ⟨graph, ?_, hsnapshot, hsound, SourceTree.Same.refl _, ?_⟩
  · unfold Server.sources
    rw [h.overrides_eq, hgraph]
  · show (project.server.transform project.tree.fs _ id).workspace.Notes graph
    rw [Server.transform_of_isSheet (Server.isSheet_iff.mpr hid), h.overrides_eq]
    exact hnotes

/-! ## What becomes of a module -/

/-- Until a change concerns its stylesheet, the files of a snapshot are unchanged, or the server has
not been told of an edit. -/
theorem unchanged_or_unnoticed (hline : overrides.line = none)
    (hsnapshot : Snapshot tree overrides entry graph)
    (hrun : Run (fun project event => project.Allows event ∧ project.Spares entry event) project events
      final)
    (hfollows : project.Follows tree overrides graph) (hunchanged : Unchanged tree graph project) :
    final.Follows tree overrides graph ∧
      (Unchanged tree graph final ∨ ∃ path ∈ graph.keys, path ∈ final.unnoticed) := by
  refine hrun.preserves (P := fun project => project.Follows tree overrides graph ∧
    (Unchanged tree graph project ∨ ∃ path ∈ graph.keys, path ∈ project.unnoticed)) ?_
    ⟨hfollows, .inl hunchanged⟩
  rintro project event ⟨hallows, hspares⟩ ⟨hfollows, hfiles⟩
  cases event with
  | request code id =>
    -- with an edit that the server has not been told of, no request would be allowed
    rcases hfiles with hunchanged | ⟨path, -, hpath⟩
    · exact ⟨hfollows.next hline hsnapshot hallows fun _ => hunchanged, .inl hunchanged⟩
    · rw [hallows.1] at hpath
      exact absurd hpath List.not_mem_nil
  | edit path content =>
    refine ⟨hfollows.next hline hsnapshot hallows (fun h => nomatch h), ?_⟩
    by_cases hmem : path ∈ graph.keys
    · exact .inr ⟨path, hmem, List.mem_cons_self⟩
    · rcases hfiles with hunchanged | ⟨other, hother, hpath⟩
      · exact .inl (hunchanged.next hmem)
      · exact .inr ⟨other, hother, List.mem_cons_of_mem _ hpath⟩
  | notify address =>
    refine ⟨hfollows.next hline hsnapshot hallows (fun h => nomatch h), ?_⟩
    rcases hfiles with hunchanged | ⟨path, hmem, hpath⟩
    · exact .inl hunchanged
    · refine .inr ⟨path, hmem, List.mem_filter.mpr ⟨hpath, decide_eq_true ?_⟩⟩
      -- the server cannot be told of this file without concerning the entry
      rintro rfl
      exact hspares.2 (hfollows.mem_importersOf hsnapshot hmem hspares.1)

/-- While none of its files is edited, a snapshot is followed and its files are unchanged. -/
theorem follows_of_leaves (hline : overrides.line = none)
    (hsnapshot : Snapshot tree overrides entry graph)
    (hrun : Run (fun project event => project.Allows event ∧ event.Leaves graph.keys) project events
      final)
    (hfollows : project.Follows tree overrides graph) (hunchanged : Unchanged tree graph project) :
    final.Follows tree overrides graph ∧ Unchanged tree graph final := by
  refine hrun.preserves (P := fun project => project.Follows tree overrides graph ∧
    Unchanged tree graph project) ?_ ⟨hfollows, hunchanged⟩
  rintro project event ⟨hallows, hleaves⟩ ⟨hfollows, hunchanged⟩
  exact ⟨hfollows.next hline hsnapshot hallows fun _ => hunchanged, hunchanged.next hleaves⟩

/-- While nothing is asked for, a snapshot is followed, whatever is edited. -/
theorem follows_of_quiet (hline : overrides.line = none)
    (hsnapshot : Snapshot tree overrides entry graph)
    (hrun : Run (fun project event => project.Allows event ∧ event.isRequest = false) project events
      final)
    (hfollows : project.Follows tree overrides graph) : final.Follows tree overrides graph := by
  refine hrun.preserves ?_ hfollows
  rintro project event ⟨hallows, hquiet⟩ hfollows
  refine hfollows.next hline hsnapshot hallows fun hrequest => ?_
  rw [hquiet] at hrequest
  cases hrequest

/-- A server that makes the module of a snapshot again makes the same one if the files are
unchanged. -/
theorem Follows.transform_eq_ok {again : Text}
    (h : final.Follows tree (Server.start style loadPaths).overrides graph)
    (hsnapshot : Snapshot tree (Server.start style loadPaths).overrides
      (tree.fs.resolve (withoutQuery id)) graph)
    (hunchanged : Unchanged tree graph final) (hagain : Path.IsSheet (withoutQuery again))
    (hsame : final.sheetAt again = tree.fs.resolve (withoutQuery id))
    (hallows : final.Allows (.request (tree.text (tree.fs.resolve (withoutQuery id))) again))
    (hresult : ((Server.start style loadPaths).transform tree.fs
      (tree.text (tree.fs.resolve (withoutQuery id))) id).result = .ok (some text)) :
    (final.server.transform final.tree.fs (tree.text (tree.fs.resolve (withoutQuery id))) again).result =
      .ok (some text) := by
  obtain ⟨hid, hmodule⟩ := Server.emitModule_of_transform hresult
  have hunchangedModule := (hsnapshot.emitModule_eq rfl hid h.same hunchanged).1.symm.trans hmodule
  have hpath : final.tree.fs.resolve (withoutQuery again) =
      final.tree.fs.resolve (withoutQuery id) := by
    rw [← h.same.resolve (withoutQuery id)]
    exact hsame
  rw [(h.sound.transform_eq hallows).1]
  refine Server.transform_of_emitModule hagain ?_
  exact (congrArg Response.result (Workspace.emitModule_resolve _ hpath)).trans hunchangedModule

/-- A server that is told of a file of a snapshot calls all modules of the entry out of date. -/
theorem Follows.update_eq_some {address : Text} (h : final.Follows tree overrides graph)
    (hsnapshot : Snapshot tree overrides entry graph) (hmem : withoutQuery address ∈ graph.keys)
    (hne : withoutQuery address ≠ entry) {α : Type} [DecidableEq α] (modules : List α)
    (modulesOf : Text → List α) :
    ∃ invalidation,
      (final.server.update final.tree.fs address modules modulesOf).1 = some invalidation ∧
        ∀ m ∈ modulesOf entry, m ∈ invalidation.invalidated ∧ m ∈ invalidation.affected :=
  Server.update_of_mem_importersOf (h.mem_importersOf hsnapshot hmem hne) modules modulesOf

/-- A module that has been handed out is what a request for its stylesheet would give until a change
concerns this. And if the first edit of a file that it is made of is one of another file than its
stylesheet, then the change of this file concerns it: the server calls all modules of the stylesheet
out of date. -/
theorem module_stays_or_is_invalidated (hrun : Run Allows (start tree style loadPaths) events project)
    (hallows : project.Allows (.request code id))
    (hresult : (project.server.transform project.tree.fs code id).result = .ok (some text)) :
    (∀ later final again,
      Run (fun project' event => project'.Allows event ∧ project'.Spares (project.sheetAt id) event)
        (project.next (.request code id)) later final →
      Path.IsSheet (withoutQuery again) → final.sheetAt again = project.sheetAt id →
      final.Allows (.request code again) →
      (final.server.transform final.tree.fs code again).result = .ok (some text)) ∧
    ∀ before between file content quiet after address,
      Run (fun project' event => project'.Allows event ∧
          event.Leaves (project.server.sources project.tree.fs code id))
        (project.next (.request code id)) before between →
      file ∈ project.server.sources project.tree.fs code id → file ≠ project.sheetAt id →
      Run (fun project' event => project'.Allows event ∧ event.isRequest = false)
        (between.next (.edit file content)) quiet after →
      withoutQuery address = file →
      ∀ {α : Type} [DecidableEq α] (modules : List α) (modulesOf : Text → List α),
        ∃ invalidation,
          (after.server.update after.tree.fs address modules modulesOf).1 = some invalidation ∧
          ∀ m ∈ modulesOf (project.sheetAt id),
            m ∈ invalidation.invalidated ∧ m ∈ invalidation.affected := by
  have hsound := sound_of_run hrun
  obtain ⟨graph, hsources, hsnapshot, hfollows⟩ := hsound.follows rfl hallows hresult
  constructor
  · -- the server has been told of all edits at the end, so none was one of the snapshot's files
    intro later final again hlater hagain hsame hfinal
    obtain ⟨hfollows', hfiles⟩ := unchanged_or_unnoticed rfl hsnapshot hlater hfollows fun _ _ => rfl
    have hunchanged : Unchanged project.tree graph final := by
      rcases hfiles with hunchanged | ⟨path, -, hpath⟩
      · exact hunchanged
      · rw [hfinal.1] at hpath
        exact absurd hpath List.not_mem_nil
    rw [(hsound.transform_eq hallows).1] at hresult
    obtain ⟨-, rfl⟩ := hallows
    exact hfollows'.transform_eq_ok hsnapshot hunchanged hagain hsame hfinal hresult
  · intro before between file content quiet after address hbefore hfile hne hquiet haddress α _ modules
      modulesOf
    rw [hsources] at hbefore hfile
    cases haddress
    -- up to the edit nothing has changed, and behind it nothing is asked for
    obtain ⟨hbetween, -⟩ := follows_of_leaves rfl hsnapshot hbefore hfollows fun _ _ => rfl
    have hedited : (between.next (.edit (withoutQuery address) content)).Follows project.tree _ graph :=
      hbetween.next rfl hsnapshot trivial fun hrequest => nomatch hrequest
    have hafter := follows_of_quiet rfl hsnapshot hquiet hedited
    exact hafter.update_eq_some hsnapshot hfile hne modules modulesOf

/-- The module of a stylesheet is out of date when the file that it imports has changed. -/
theorem invalidated_of_edited :
    ∃ invalidation,
      ((edited "part").server.update (edited "part").tree.fs "/part.terrace" ([] : List Text)
        fun path => [path]).1 = some invalidation ∧
      ("/main.terrace" : Text) ∈ invalidation.invalidated ∧
      ("/main.terrace" : Text) ∈ invalidation.affected := by
  have hmodule : (((importing "part").server.transform (importing "part").tree.fs "@import part"
      "/main.terrace").result.map Option.isSome) = .ok true := by
    decide +kernel
  obtain ⟨answer, hanswer, hsome⟩ := map_eq_ok.mp hmodule
  obtain ⟨text, rfl⟩ := Option.isSome_iff_exists.mp hsome
  have hallows : (importing "part").Allows (.request "@import part" "/main.terrace") :=
    ⟨rfl, by decide +kernel⟩
  obtain ⟨invalidation, hupdate, hmodules⟩ := (module_stays_or_is_invalidated .done hallows hanswer).2
    [] _ "/part.terrace" "b" [] _ "/part.terrace" .done (by decide +kernel) (by decide +kernel) .done
    (by decide +kernel) ([] : List Text) fun path => [path]
  have hmain := hmodules "/main.terrace" (by decide +kernel)
  exact ⟨invalidation, hupdate, hmain.1, hmain.2⟩

/-- An edit of a file whose path has a question mark invalidates no module, although the server is
told of it: the path is taken for an address with a query. -/
theorem not_invalidated_behind_question_mark :
    ("/a?b.terrace" : Text) ∈
        (importing "a?b").server.sources (importing "a?b").tree.fs "@import a?b" "/main.terrace" ∧
      ("/a?b.terrace" : Text) ≠ (importing "a?b").sheetAt "/main.terrace" ∧
      ((edited "a?b").server.update (edited "a?b").tree.fs "/a?b.terrace" ([] : List Text)
        fun path => [path]).1.isNone = true := by
  decide +kernel

end Project

end Stylesheet
