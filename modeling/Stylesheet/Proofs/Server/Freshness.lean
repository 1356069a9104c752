import Stylesheet.Proofs.Server.Project

/-!
# A server that is told of edits stays fresh

However a server has been used, it answers like one that has not been used before, as long as it is
told of the edits in between.

- `Server.transform_congr`: what a server answers depends on its settings and on the module it
  makes.
- `Sound.transform_eq`: a server with an up-to-date workspace answers like any other such server.
- `Project.transform_eq_start`: after any run, a server answers like a new one.
-/

namespace Stylesheet

variable {overrides : Overrides} {style : Option Text} {loadPaths : Option (List Text)}
  {tree : SourceTree} {code id : Text}

/-- What a server answers depends on its settings and on the module it makes. -/
theorem Server.transform_congr {fs fs' : FileSystem} {server server' : Server}
    (h : isSheet (withoutQuery id) = true →
      (server.workspace.emitModule fs server.overrides code (withoutQuery id)).result =
          (server'.workspace.emitModule fs' server'.overrides code (withoutQuery id)).result ∧
        (server.workspace.emitModule fs server.overrides code (withoutQuery id)).notices =
          (server'.workspace.emitModule fs' server'.overrides code (withoutQuery id)).notices) :
    (server.transform fs code id).result = (server'.transform fs' code id).result ∧
      (server.transform fs code id).notices = (server'.transform fs' code id).notices := by
  cases hsheet : isSheet (withoutQuery id) with
  | false =>
    rw [transform_of_not_isSheet hsheet, transform_of_not_isSheet hsheet]
    exact ⟨rfl, rfl⟩
  | true =>
    obtain ⟨hresult, hnotices⟩ := h hsheet
    rw [transform_of_isSheet hsheet, transform_of_isSheet hsheet]
    dsimp only
    rw [hresult, hnotices]
    exact ⟨rfl, rfl⟩

namespace Project

variable {project final : Project} {events : List Event}

/-- A server that has been told of all edits answers like a new one. -/
theorem Sound.transform_eq (h : project.Sound (Server.start style loadPaths).overrides)
    (hallows : project.Allows (.request code id)) :
    (project.server.transform project.tree.fs code id).result =
        ((Server.start style loadPaths).transform project.tree.fs code id).result ∧
      (project.server.transform project.tree.fs code id).notices =
        ((Server.start style loadPaths).transform project.tree.fs code id).notices := by
  obtain ⟨hnoticed, rfl⟩ := hallows
  refine Server.transform_congr fun hsheet => ?_
  have hupToDate := h.upToDate
  have hid := Server.isSheet_iff.mp hsheet
  -- the new server holds nothing, so that its workspace is up to date as well
  rw [hnoticed] at hupToDate
  rw [h.overrides_eq]
  refine Workspace.emitModule_congr hupToDate Workspace.upToDate_empty rfl hid
    (SourceTree.Same.refl _) (.inl rfl) (fun _ _ => rfl) (fun _ hvisit => hvisit) fun sheet hread => ?_
  exact (hupToDate.holding hid hread).confined _

/-- After any run of requests, edits and notifications, in which the server is told of each edit
before the next request, a server answers a request like a new one with the same settings, and gives
the same notices. -/
theorem transform_eq_start (hrun : Run Allows (start tree style loadPaths) events project)
    (hallows : project.Allows (.request code id)) :
    (project.server.transform project.tree.fs code id).result =
        ((Server.start style loadPaths).transform project.tree.fs code id).result ∧
      (project.server.transform project.tree.fs code id).notices =
        ((Server.start style loadPaths).transform project.tree.fs code id).notices :=
  (sound_of_run hrun).transform_eq hallows

/-- After an edit of which the server has been told, the module shows the new text, as a new
server's does. -/
theorem transform_eq_start_of_edited :
    (((edited "part").next (.notify "/part.terrace?t=1")).server.transform
        (edited "part").tree.fs "@import part" "/main.terrace").result =
      ((Server.start none none).transform (edited "part").tree.fs "@import part"
        "/main.terrace").result ∧
    ((Server.start none none).transform (edited "part").tree.fs "@import part"
        "/main.terrace").result ≠
      ((importing "part").server.transform (importing "part").tree.fs "@import part"
        "/main.terrace").result := by
  have hrun : Run Allows (importing "part")
      [.request "@import part" "/main.terrace", .edit "/part.terrace" "b",
        .notify "/part.terrace?t=1"]
      ((edited "part").next (.notify "/part.terrace?t=1")) :=
    .step ⟨rfl, by decide +kernel⟩ (.step trivial (.step trivial .done))
  have hallows : ((edited "part").next (.notify "/part.terrace?t=1")).Allows
      (.request "@import part" "/main.terrace") :=
    ⟨by decide +kernel, by decide +kernel⟩
  exact ⟨(transform_eq_start hrun hallows).1, by decide +kernel⟩

/-- A file whose path has a question mark stays stale, although the server is told of its edit: the
path is taken for an address with a query. -/
theorem stale_behind_question_mark :
    (((edited "a?b").next (.notify "/a?b.terrace")).server.transform
        (edited "a?b").tree.fs "@import a?b" "/main.terrace").result ≠
      ((Server.start none none).transform (edited "a?b").tree.fs "@import a?b"
        "/main.terrace").result := by
  decide +kernel

end Project

end Stylesheet
