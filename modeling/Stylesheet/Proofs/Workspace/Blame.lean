import Stylesheet.Proofs.Document.Causes
import Stylesheet.Proofs.Workspace.Circles
import Stylesheet.Proofs.Workspace.Importers
import Stylesheet.Proofs.Workspace.Provenance

/-!
# What a failure leaves noted

A traversal fails at one stylesheet, of which it can make nothing. The imports that have led there
are noted before, so that they stay noted.

- `Sheet.ReadFor`: a stylesheet that was read as the file at a path; its imports stand on lines of
  this file and are other stylesheets.
- `SyntaxError.Blames`: the stylesheets that an error is about.
- `Workspace.standing`: the imports noted for a stylesheet that is held, but for those of a culprit.
- `Traversal.stopped_of_visits`: where a traversal that fails has stopped. `Led.stands`: the imports
  on the way there stand; `blamed_of_answer`: and the error is about a stylesheet on this way.
- `Workspace.stands_of_emitModule`: so they do where the module of a stylesheet cannot be made.
-/

namespace Stylesheet

/-! ## Stylesheets and the files that they were read as -/

theorem Path.IsNormal.resolve_eq {path : Text} (h : IsNormal path) (fs : FileSystem) :
    fs.resolve path = path := by
  obtain ⟨segments, hsegments, rfl⟩ := h
  exact normalize_join hsegments

/-- The stylesheet was read as the file at a path. -/
def Sheet.ReadFor (path : Text) (sheet : Sheet) : Prop :=
  ∃ fs settings source, settings.filename = some path ∧
    Document.parse fs settings source = .ok sheet

namespace Sheet.ReadFor

variable {path : Text} {sheet : Sheet} {imported : Document.SheetImport}

theorem belongsAt (h : sheet.ReadFor path) : sheet.BelongsAt path := by
  obtain ⟨fs, settings, source, hname, hparse⟩ := h
  exact belongsAt_of_parse hname hparse

/-- What is imported is the absolute path of a stylesheet. -/
theorem import_isSheet (h : sheet.ReadFor path) (himported : imported ∈ sheet.imports) :
    Path.IsSheet imported.path ∧ Path.IsNormal imported.path := by
  obtain ⟨fs, settings, source, -, hparse⟩ := h
  have hserves := Document.serves_of_mem_imports hparse imported himported
  exact ⟨hserves.isSheet, hserves.isNormal⟩

/-- An import stands on a line of the importing file. -/
theorem import_site (h : sheet.ReadFor path) (himported : imported ∈ sheet.imports) :
    imported.site.filename = some path := by
  obtain ⟨node, hnode, himport⟩ := List.mem_filterMap.mp himported
  have hwalk : node.bare ∈ Node.forestWalk sheet.children := by
    obtain ⟨front, back, hsplit⟩ := List.append_of_mem hnode
    rw [hsplit, Node.forestWalk_append, Node.forestWalk, Node.walk_eq]
    exact List.mem_append_right _ List.mem_cons_self
  have hname := h.belongsAt.nodes _ hwalk
  split at himport
  · cases himport
    exact hname
  · cases himport

end Sheet.ReadFor

theorem Workspace.Operation.Gives.readFor {operation : Workspace.Operation} {path : Text}
    {sheet : Sheet} (h : operation.Gives path sheet) : sheet.ReadFor path := by
  obtain ⟨fs, settings, source, hreads, hsheet⟩ := h
  refine ⟨fs, settings, source, ?_, hsheet.parsed⟩
  cases hreads <;> rfl

/-! ## Blame -/

/-- An error is about a stylesheet if it names its file, or says that it cannot be read. -/
def SyntaxError.Blames (e : SyntaxError) (culprit : Text) : Prop :=
  e.site.filename = some culprit ∨ e.cause = .unreadable culprit

namespace Workspace

/-- The imports noted for a stylesheet that is held, unless it is the culprit. -/
def standing (workspace : Workspace) (culprit path : Text) : List Text :=
  if path ≠ culprit ∧ (workspace.sheets.get? path).isSome then workspace.noted path else []

variable {fs : FileSystem} {overrides : Overrides} {workspace : Workspace} {path culprit : Text}
  {site : Site} {e : SyntaxError}

theorem mem_standing {other : Text} :
    other ∈ workspace.standing culprit path ↔
      path ≠ culprit ∧ (∃ sheet, workspace.sheets.get? path = some sheet) ∧
        other ∈ workspace.noted path := by
  unfold standing
  rw [← Option.isSome_iff_exists]
  split
  · rename_i h
    exact ⟨fun hmem => ⟨h.1, h.2, hmem⟩, fun h => h.2.2⟩
  · rename_i h
    exact ⟨fun hmem => absurd hmem List.not_mem_nil, fun hall => absurd ⟨hall.1, hall.2.1⟩ h⟩

/-- Imports that stand are noted. -/
theorem reaches_noted {a b : Text} (h : Reaches (workspace.standing culprit) a b) :
    Reaches workspace.noted a b :=
  Relation.ReflTransGen.mono (fun _ _ hstep => (mem_standing.mp hstep).2.2) _ _ h

/-- A stylesheet that cannot be had is one that cannot be read, or that has something wrong in
it. -/
theorem lookup_eq_error (h : workspace.lookup fs overrides path site = .error e) :
    e = ⟨.unreadable path, site⟩ ∨ (e.cause.isTextual = true ∧ e.site.filename = some path) := by
  unfold lookup at h
  split at h
  · cases h
  · split at h
    · cases h
      exact .inl rfl
    · exact .inr (Document.error_of_parse h)

end Workspace

namespace Traversal

variable {fs : FileSystem} {overrides : Overrides} {origin : Workspace} {entry culprit : Text}
  {visit : Visit} {agenda : List Visit} {t final : Traversal} {result : Except SyntaxError Unit}
  {e : SyntaxError}

/-- A traversal that fails has stopped at a visit of which it could make nothing. All on the chain
of this visit have been visited. -/
theorem stopped_of_visits (h : Visits fs overrides agenda t result final) (hresult : result = .error e)
    (hfaithful : Faithful fs overrides origin t)
    (hagenda : ∀ visit ∈ agenda, Led fs overrides origin entry visit ∧
      ∀ path ∈ visit.chain, path ∈ t.graph.keys) :
    ∃ visit, Led fs overrides origin entry visit ∧ visit.path ∉ visit.chain ∧
      (∀ path ∈ visit.chain, path ∈ final.graph.keys) ∧
      final.answer fs overrides visit = .error e := by
  induction h with
  | done => cases hresult
  | @circle visit _ _ _ _ _ _ ih =>
    exact ih hresult (hfaithful.circled visit) (List.forall_mem_cons.mp hagenda).2
  | known _ _ _ ih => exact ih hresult hfaithful (List.forall_mem_cons.mp hagenda).2
  | @failed visit _ _ _ hchain _ hanswer =>
    cases hresult
    obtain ⟨hled, hvisited⟩ := hagenda visit List.mem_cons_self
    exact ⟨visit, hled, hchain, hvisited, hanswer⟩
  | entered _ hnew hanswer hinner _ _ ihRest =>
    obtain ⟨-, hagenda⟩ := List.forall_mem_cons.mp hagenda
    refine ihRest hresult (faithful_of_visits hinner (hfaithful.visited hanswer)) ?_
    intro next hnext
    obtain ⟨hled, hvisited⟩ := hagenda next hnext
    refine ⟨hled, fun path hpath => (grown_of_visits hinner).1 path ?_⟩
    rw [keys_visited hnew]
    exact List.mem_append_left _ (hvisited path hpath)
  | stopped hchain hnew hanswer _ ihInner =>
    obtain ⟨⟨hled, hvisited⟩, -⟩ := List.forall_mem_cons.mp hagenda
    refine ihInner hresult (hfaithful.visited hanswer) ?_
    intro next hnext
    refine ⟨led_of_mem_onward hled hchain hfaithful hanswer next hnext, ?_⟩
    -- the chain of an import is that of its importer, and the importer, which is visited now
    obtain ⟨_, -, rfl⟩ := List.mem_map.mp hnext
    intro path hpath
    rw [keys_visited hnew]
    rcases List.mem_append.mp hpath with hpath | hpath
    · exact List.mem_append_left _ (hvisited path hpath)
    · exact List.mem_append_right _ hpath

/-- The imports on the chain of a visit stand, if all on it have been visited. -/
theorem Led.stands (h : Led fs overrides origin entry visit)
    (hfaithful : Faithful fs overrides origin final)
    (hvisited : ∀ path ∈ visit.chain, path ∈ final.graph.keys) (hculprit : culprit ∉ visit.chain) :
    Reaches (final.workspace.standing culprit) entry visit.path := by
  induction h with
  | entry => exact .refl
  | @onward visit sheet imported _ _ hsheet himported ih =>
    have hinner : ∀ path ∈ visit.chain, path ∈ final.graph.keys :=
      fun path hpath => hvisited path (List.mem_append_left _ hpath)
    have hlast : visit.path ∈ final.graph.keys :=
      hvisited _ (List.mem_append_right _ List.mem_cons_self)
    obtain ⟨held, hget⟩ := Table.exists_get?_of_mem_keys hlast
    have hsame := hfaithful.lookup_of_get? hget ⟨1, none⟩
    rw [hsheet] at hsame
    cases hsame
    refine (ih hinner fun hmem => hculprit (List.mem_append_left _ hmem)).tail ?_
    refine Workspace.mem_standing.mpr ⟨?_, ⟨sheet, hfaithful.kept _ _ hget⟩, ?_⟩
    · rintro rfl
      exact hculprit (List.mem_append_right _ List.mem_cons_self)
    · unfold Workspace.noted
      rw [hfaithful.noted _ _ hget]
      exact List.mem_eraseDups.mpr (List.mem_map_of_mem himported)

/-- The error of a visit is about the stylesheet that is visited, or about the one that imports
it. -/
theorem blamed_of_answer (h : Led fs overrides origin entry visit)
    (hread : ∀ path site sheet, origin.lookup fs overrides path site = .ok sheet → sheet.ReadFor path)
    (hchain : visit.path ∉ visit.chain)
    (hvisited : ∀ path ∈ visit.chain, path ∈ final.graph.keys)
    (hanswer : final.answer fs overrides visit = .error e) (hblames : e.Blames culprit) :
    ∃ visit, Led fs overrides origin entry visit ∧ visit.path = culprit ∧
      visit.path ∉ visit.chain ∧ ∀ path ∈ visit.chain, path ∈ final.graph.keys := by
  rcases Workspace.lookup_eq_error hanswer with rfl | ⟨htextual, hname⟩
  · rcases hblames with hsite | hcause
    · -- the site is that of an import, in the file of its importer
      cases h with
      | entry => cases hsite
      | @onward importer sheet imported hled hcircle hsheet himported =>
        have hname := (hread _ _ _ hsheet).import_site himported
        have hsite : imported.site.filename = some culprit := hsite
        rw [hname] at hsite
        exact ⟨importer, hled, Option.some.inj hsite, hcircle,
          fun path hpath => hvisited path (List.mem_append_left _ hpath)⟩
    · cases hcause
      exact ⟨visit, h, rfl, hchain, hvisited⟩
  · rcases hblames with hsite | hcause
    · rw [hname] at hsite
      exact ⟨visit, h, Option.some.inj hsite, hchain, hvisited⟩
    · rw [hcause] at htextual
      cases htextual

/-- All that is visited, but for the entry, is the absolute path of a stylesheet. -/
theorem Led.isSheet (h : Led fs overrides origin entry visit)
    (hread : ∀ path site sheet, origin.lookup fs overrides path site = .ok sheet → sheet.ReadFor path)
    (hne : visit.path ≠ entry) : Path.IsSheet visit.path ∧ Path.IsNormal visit.path := by
  cases h with
  | entry => exact absurd rfl hne
  | onward _ _ hsheet himported => exact (hread _ _ _ hsheet).import_isSheet himported

end Traversal

namespace Workspace

variable {fs : FileSystem} {overrides : Overrides} {workspace : Workspace} {entry culprit code id : Text}
  {e : SyntaxError}

/-- Where an exploration fails, the imports stand that lead from its entry to a stylesheet that its
error is about. -/
theorem stands_of_explore
    (hread : ∀ path site sheet, workspace.lookup fs overrides path site = .ok sheet →
      sheet.ReadFor path)
    (h : (workspace.explore fs overrides entry).result = .error e) (hblames : e.Blames culprit) :
    Reaches ((workspace.explore fs overrides entry).workspace.standing culprit) (fs.resolve entry)
        culprit ∧
      (culprit ≠ fs.resolve entry → Path.IsSheet culprit ∧ Path.IsNormal culprit) := by
  obtain ⟨result, final, hvisits, hexplore⟩ := explore_visits fs overrides workspace entry
  rw [hexplore] at h ⊢
  have hresult : result = .error e := map_eq_error.mp h
  have hfaithful := Traversal.faithful_of_visits hvisits (Traversal.faithful_start workspace)
  obtain ⟨visit, hled, hchain, hvisited, hanswer⟩ :=
    Traversal.stopped_of_visits hvisits hresult (Traversal.faithful_start workspace)
      (List.forall_mem_singleton.mpr ⟨.entry, fun path hpath => absurd hpath List.not_mem_nil⟩)
  obtain ⟨blamed, hled, rfl, hchain, hvisited⟩ :=
    Traversal.blamed_of_answer hled hread hchain hvisited hanswer hblames
  exact ⟨hled.stands hfaithful hvisited hchain, hled.isSheet hread⟩

/-- Where the module of a stylesheet cannot be made because of another stylesheet, the imports stand
that lead there. -/
theorem stands_of_emitModule
    (hread : ∀ path sheet, workspace.sheets.get? path = some sheet → sheet.ReadFor path)
    (h : (workspace.emitModule fs overrides code id).result = .error e) (hblames : e.Blames culprit)
    (hne : culprit ≠ fs.resolve id) :
    Reaches ((workspace.emitModule fs overrides code id).workspace.standing culprit) (fs.resolve id)
        culprit ∧
      Path.IsSheet culprit ∧ Path.IsNormal culprit := by
  cases hentry : entrySheet fs overrides code id with
  | error e' =>
    -- what is wrong with the text itself is about no other stylesheet
    rw [emitModule_of_error hentry] at h
    cases h
    obtain ⟨htextual, hname⟩ := Document.error_of_parse hentry
    rcases hblames with hsite | hcause
    · rw [hname] at hsite
      exact absurd (Option.some.inj hsite).symm hne
    · rw [hcause] at htextual
      cases htextual
  | ok given =>
    rw [emitModule_of_ok hentry] at h ⊢
    have hstands := stands_of_explore (fun path site sheet hlookup => ?_) (map_eq_error.mp h) hblames
    · rw [FileSystem.resolve_resolve] at hstands
      exact ⟨hstands.1, hstands.2 hne⟩
    · rcases gives_of_holding hentry hlookup with ⟨hheld, -⟩ | hgives
      · exact hread path sheet hheld
      · exact hgives.readFor

end Workspace

end Stylesheet
