import Stylesheet.Proofs.Document.Imports
import Stylesheet.Proofs.Workspace.InStep

/-!
# Where the stylesheets of a workspace come from

A stylesheet that a workspace holds was read by one of its operations, over the files of that moment
and under the settings that this operation was given. Later operations hand it out as it is.

- `Sheet.ReadAs`: what a text is read as, over some files and under some settings.
- `Workspace.Operation.Reads`: what an operation may read as the stylesheet at a path: a file, or
  the text that it is given. `Workspace.Operation.Drops`: whether it drops the stylesheet there.
- `read_of_explore`, `steps_of_moduleGraph`: where the stylesheets come from that an exploration
  answers with, and those that a module is made of.
- `held_after`, `held_afterAll`: what is held after an operation, or after a list of them, was held
  before and not dropped, or has been read. `held_of_explore`, `held_of_emitModule`: what stays
  held.
- `settings_of_explore`: so an exploration answers with stylesheets that keep the settings of the
  operation that read them.
-/

namespace Stylesheet

/-- The stylesheet is what a text is read as, over some files and under some settings: it keeps the
settings, and it imports what is found there for its entries. -/
structure Sheet.ReadAs (fs : FileSystem) (overrides : Overrides) (source : Text) (sheet : Sheet) :
    Prop where
  parsed : Document.parse fs overrides source = .ok sheet
  options : sheet.options = overrides.resolve
  imports : sheet.imports.map Document.SheetImport.path =
    (Document.askings overrides source).filterMap fun asked =>
      asked.2.found? fs overrides.resolve.searchPath

theorem Sheet.readAs_of_parse {fs : FileSystem} {overrides : Overrides} {source : Text} {sheet : Sheet}
    (h : Document.parse fs overrides source = .ok sheet) : sheet.ReadAs fs overrides source where
  parsed := h
  options := by
    obtain ⟨_, _, _, _, -, -, -, -, hoptions⟩ := Document.steps_of_parseWith (Document.parse_eq_ok.mp h)
    exact hoptions
  imports := Document.imports_of_parse h

/-- The settings for the file at a path, whose lines are counted from 1. -/
def Overrides.forFile (overrides : Overrides) (path : Text) : Overrides :=
  { overrides with filename := some path, line := none }

/-- The settings for a text that is given for the file at a path. -/
def Overrides.forText (overrides : Overrides) (path : Text) : Overrides :=
  { overrides with filename := some path }

theorem Overrides.forText_of_line {overrides : Overrides} (h : overrides.line = none) (path : Text) :
    overrides.forText path = overrides.forFile path := by
  unfold forText forFile
  rw [h]

/-! ## Explorations -/

namespace Traversal

variable {fs : FileSystem} {overrides : Overrides} {origin : Workspace} {t : Traversal} {path : Text}
  {sheet : Sheet}

/-- What is held after a traversal is what the workspace at the start has. -/
theorem Faithful.lookup_of_held (h : Faithful fs overrides origin t)
    (hheld : t.workspace.sheets.get? path = some sheet) (site : Site) :
    origin.lookup fs overrides path site = .ok sheet := by
  rw [← h.answers]
  exact Workspace.lookup_of_get? hheld site

/-- What was held before a traversal is held after it. -/
theorem Faithful.held (h : Faithful fs overrides origin t)
    (hheld : origin.sheets.get? path = some sheet) :
    t.workspace.sheets.get? path = some sheet := by
  cases hvisited : t.graph.get? path with
  | none => exact (h.untouched path hvisited).1.trans hheld
  | some visited =>
    have hsame := h.lookup_of_get? hvisited ⟨1, none⟩
    rw [Workspace.lookup_of_get? hheld] at hsame
    cases hsame
    exact h.kept path _ hvisited

end Traversal

namespace Workspace

variable {fs : FileSystem} {overrides settings : Overrides} {workspace : Workspace}
  {path source code id entry : Text} {site : Site} {sheet : Sheet} {graph : Table Text Sheet}
  {operation : Operation} {operations : List Operation}

/-! ## What operations read -/

/-- What an operation may read as the stylesheet at a path: over which files, under which settings,
and which text. -/
inductive Operation.Reads : Operation → Text → FileSystem → Overrides → Text → Prop where
  | explored {fs : FileSystem} {overrides : Overrides} {entry path source : Text}
    (h : fs.read? path = some source) :
    Reads (.explore fs overrides entry) path fs (overrides.forFile path) source
  | imported {fs : FileSystem} {overrides : Overrides} {code id path source : Text}
    (h : fs.read? path = some source) :
    Reads (.emitModule fs overrides code id) path fs (overrides.forFile path) source
  | given {fs : FileSystem} {overrides : Overrides} {code id : Text} :
    Reads (.emitModule fs overrides code id) (fs.resolve id) fs (overrides.forText (fs.resolve id)) code

/-- The stylesheet at a path is what an operation has read there. -/
def Operation.Gives (operation : Operation) (path : Text) (sheet : Sheet) : Prop :=
  ∃ fs settings source, operation.Reads path fs settings source ∧ sheet.ReadAs fs settings source

/-- Whether an operation drops the stylesheet at a path. -/
def Operation.Drops : Operation → Text → Prop
  | .forget _ none, _ | .forget _ (some []), _ => True
  | .forget fs (some (c :: path)), other => fs.resolve (c :: path) = other
  | .explore _ _ _, _ | .emitModule _ _ _ _, _ => False

/-- What is looked up is held, or read as the file there. -/
theorem read_of_lookup (h : workspace.lookup fs overrides path site = .ok sheet) :
    workspace.sheets.get? path = some sheet ∨
      workspace.sheets.get? path = none ∧ ∃ source, fs.read? path = some source ∧
        sheet.ReadAs fs (overrides.forFile path) source := by
  rcases lookup_eq_ok.mp h with hheld | ⟨hnone, source, hread, hsheet⟩
  · exact .inl hheld
  · exact .inr ⟨hnone, source, hread, Sheet.readAs_of_parse hsheet⟩

/-- An exploration leaves a traversal that has started from the workspace, and answers with what
this has visited. -/
theorem faithful_explore (fs : FileSystem) (overrides : Overrides) (workspace : Workspace)
    (entry : Text) :
    ∃ final, Traversal.Faithful fs overrides workspace final ∧
      (workspace.explore fs overrides entry).workspace = final.workspace ∧
      ∀ graph, (workspace.explore fs overrides entry).result = .ok graph → graph = final.graph := by
  obtain ⟨result, final, hvisits, hexplore⟩ := explore_visits fs overrides workspace entry
  refine ⟨final, Traversal.faithful_of_visits hvisits (Traversal.faithful_start workspace), ?_, ?_⟩
  · rw [hexplore]
  · intro graph hgraph
    rw [hexplore] at hgraph
    obtain ⟨_, -, rfl⟩ := map_eq_ok.mp hgraph
    rfl

/-- What is held stays held where the workspace is explored. -/
theorem held_of_explore (h : workspace.sheets.get? path = some sheet) :
    (workspace.explore fs overrides entry).workspace.sheets.get? path = some sheet := by
  obtain ⟨final, hfaithful, hworkspace, -⟩ := faithful_explore fs overrides workspace entry
  rw [hworkspace]
  exact hfaithful.held h

/-- A stylesheet that an exploration answers with was held, or is read as the file there. -/
theorem read_of_explore (hgraph : (workspace.explore fs overrides entry).result = .ok graph)
    (hget : graph.get? path = some sheet) :
    workspace.sheets.get? path = some sheet ∨
      workspace.sheets.get? path = none ∧ ∃ source, fs.read? path = some source ∧
        sheet.ReadAs fs (overrides.forFile path) source := by
  obtain ⟨final, hfaithful, -, hresult⟩ := faithful_explore fs overrides workspace entry
  cases hresult graph hgraph
  exact read_of_lookup (hfaithful.lookup_of_get? hget ⟨1, none⟩)

/-! ## Operations -/

/-- Where a stylesheet is put into a workspace, only what is had at its path changes. -/
theorem lookup_holding {given : Sheet} {other : Text} :
    (workspace.holding other given).lookup fs overrides path site = .ok sheet ↔
      if path = other then sheet = given else workspace.lookup fs overrides path site = .ok sheet := by
  split
  · rename_i heq
    rw [heq, lookup_of_get? (get?_holding other)]
    exact ⟨fun h => (Except.ok.inj h).symm, fun h => congrArg Except.ok h.symm⟩
  · rename_i hne
    have hsame : (workspace.holding other given).sheets.get? path = workspace.sheets.get? path := by
      show (workspace.sheets.insert other given).get? path = _
      rw [Table.get?_insert, if_neg (Ne.symm hne)]
    rw [lookup_congr hsame]

/-- From a workspace that holds the text that a module is asked for, what is had is held before, or
read by making the module. -/
theorem gives_of_holding {given : Sheet} (hentry : entrySheet fs overrides code id = .ok given)
    (h : (workspace.holding (fs.resolve id) given).lookup fs overrides path site = .ok sheet) :
    (workspace.sheets.get? path = some sheet ∧ path ≠ fs.resolve id) ∨
      (Operation.emitModule fs overrides code id).Gives path sheet := by
  rw [lookup_holding] at h
  split at h
  · rename_i heq
    rw [heq, h]
    exact .inr ⟨fs, _, code, .given, Sheet.readAs_of_parse hentry⟩
  · rename_i hne
    rcases read_of_lookup h with hheld | ⟨-, source, hread, hsheet⟩
    · exact .inl ⟨hheld, hne⟩
    · exact .inr ⟨fs, _, source, .imported hread, hsheet⟩

/-- A module is made of the stylesheet that is asked for, as its text is read, and of others, which
are had from the workspace. All that these import is among them. -/
theorem steps_of_moduleGraph {given : Sheet} (hentry : entrySheet fs overrides code id = .ok given)
    (hgraph : workspace.moduleGraph fs overrides code id = .ok graph) :
    graph.get? (fs.resolve id) = some given ∧
      ∀ path sheet, graph.get? path = some sheet →
        (path ≠ fs.resolve id → ∀ site, workspace.lookup fs overrides path site = .ok sheet) ∧
        ∀ other ∈ sheet.imports.map Document.SheetImport.path, other ∈ graph.keys := by
  unfold moduleGraph at hgraph
  rw [hentry] at hgraph
  obtain ⟨final, rfl, -, hfaithful, horder⟩ := steps_of_explore hgraph
  rw [FileSystem.resolve_resolve] at horder
  constructor
  · -- the exploration starts at the stylesheet that is asked for, which the workspace then holds
    obtain ⟨sheet, hget⟩ := Table.exists_get?_of_mem_keys (horder.mem_iff_reaches.mpr .refl)
    have hlookup := lookup_holding.mp (hfaithful.lookup_of_get? hget ⟨1, none⟩)
    rw [if_pos rfl] at hlookup
    rw [hget, hlookup]
  · intro path sheet hget
    constructor
    · intro hne site
      have hlookup := lookup_holding.mp (hfaithful.lookup_of_get? hget site)
      rwa [if_neg hne] at hlookup
    · intro other hother
      have hlookup := hfaithful.lookup_of_get? hget ⟨1, none⟩
      rw [← targets_of_lookup hlookup] at hother
      rcases horder.mem_of_mem_next (Table.mem_keys_of_get? hget) hother with hseen | hmem
      · exact absurd hseen List.not_mem_nil
      · exact hmem

/-- Making a module keeps all that is held, but for the stylesheet that is asked for. -/
theorem held_of_emitModule (h : workspace.sheets.get? path = some sheet) (hne : path ≠ fs.resolve id) :
    (workspace.emitModule fs overrides code id).workspace.sheets.get? path = some sheet := by
  cases hentry : entrySheet fs overrides code id with
  | error e =>
    rw [emitModule_of_error hentry]
    exact h
  | ok given =>
    rw [emitModule_of_ok hentry]
    refine held_of_explore ?_
    show (workspace.sheets.insert (fs.resolve id) given).get? path = some sheet
    rw [Table.get?_insert, if_neg (Ne.symm hne)]
    exact h

/-- Making a module keeps the text that is given, if it can be read. -/
theorem given_of_emitModule (hentry : entrySheet fs overrides code id = .ok sheet) :
    (workspace.emitModule fs overrides code id).workspace.sheets.get? (fs.resolve id) = some sheet := by
  rw [emitModule_of_ok hentry]
  exact held_of_explore (get?_holding _)

/-- What is held after an operation was held before and has not been dropped, or is what the
operation has read. -/
theorem held_after (h : (workspace.after operation).sheets.get? path = some sheet) :
    (workspace.sheets.get? path = some sheet ∧ ¬operation.Drops path) ∨ operation.Gives path sheet := by
  cases operation with
  | explore fs overrides entry =>
    obtain ⟨final, hfaithful, hworkspace, -⟩ := faithful_explore fs overrides workspace entry
    have h : (workspace.explore fs overrides entry).workspace.sheets.get? path = some sheet := h
    rw [hworkspace] at h
    rcases read_of_lookup (hfaithful.lookup_of_held h ⟨1, none⟩) with hheld | ⟨-, source, hread, hsheet⟩
    · exact .inl ⟨hheld, id⟩
    · exact .inr ⟨fs, _, source, .explored hread, hsheet⟩
  | emitModule fs overrides code id =>
    have h : (workspace.emitModule fs overrides code id).workspace.sheets.get? path = some sheet := h
    cases hentry : entrySheet fs overrides code id with
    | error e =>
      rw [emitModule_of_error hentry] at h
      exact .inl ⟨h, fun hdrops => hdrops⟩
    | ok given =>
      rw [emitModule_of_ok hentry] at h
      obtain ⟨final, hfaithful, hworkspace, -⟩ := faithful_explore fs overrides
        (workspace.holding (fs.resolve id) given) (fs.resolve id)
      dsimp only at h
      rw [hworkspace] at h
      rcases gives_of_holding hentry (hfaithful.lookup_of_held h ⟨1, none⟩) with ⟨hheld, -⟩ | hgives
      · exact .inl ⟨hheld, fun hdrops => hdrops⟩
      · exact .inr hgives
  | forget fs path? =>
    -- nothing is read, and what is left has another path than the one that is dropped
    left
    match path?, h with
    | none, h | some [], h => cases h
    | some (c :: dropped), h =>
      have h : (workspace.forget fs (some (c :: dropped))).sheets.get? path = some sheet := h
      rw [get?_sheets_forget (List.cons_ne_nil c dropped)] at h
      split at h
      · cases h
      · rename_i hne
        exact ⟨h, hne⟩

/-- What is held after some operations was held before and has not been dropped since, or is what
one of them has read. -/
theorem held_afterAll (h : (operations.foldl after workspace).sheets.get? path = some sheet) :
    (workspace.sheets.get? path = some sheet ∧ ∀ operation ∈ operations, ¬operation.Drops path) ∨
      ∃ operation ∈ operations, operation.Gives path sheet := by
  induction operations generalizing workspace with
  | nil => exact .inl ⟨h, fun _ hmem => absurd hmem List.not_mem_nil⟩
  | cons operation operations ih =>
    rcases ih h with ⟨hheld, hkept⟩ | ⟨reader, hreader, hgives⟩
    · rcases held_after hheld with ⟨hbefore, hdrops⟩ | hgives
      · exact .inl ⟨hbefore, List.forall_mem_cons.mpr ⟨hdrops, hkept⟩⟩
      · exact .inr ⟨operation, List.mem_cons_self, hgives⟩
    · exact .inr ⟨reader, List.mem_cons_of_mem _ hreader, hgives⟩

/-- All that is held after operations on an empty workspace is what one of them has read. -/
theorem gives_of_held (h : (operations.foldl after empty).sheets.get? path = some sheet) :
    ∃ operation ∈ operations, operation.Gives path sheet := by
  rcases held_afterAll h with ⟨hheld, -⟩ | hgives
  · cases hheld
  · exact hgives

/-! ## Settings -/

/-- The operation reads under the given settings, or does not read. -/
def Operation.Shares (overrides : Overrides) : Operation → Prop
  | .explore _ own _ => own = overrides
  | .emitModule _ own _ _ => own = overrides ∧ own.line = none
  | .forget _ _ => True

/-- What operations under the same settings have read was read under the settings of its file. -/
theorem Operation.Gives.of_shares (h : operation.Gives path sheet)
    (hshares : operation.Shares overrides) :
    ∃ files source, sheet.ReadAs files (overrides.forFile path) source := by
  obtain ⟨files, settings, source, hreads, hsheet⟩ := h
  cases hreads with
  | explored =>
    cases hshares
    exact ⟨files, source, hsheet⟩
  | imported =>
    obtain ⟨rfl, -⟩ := hshares
    exact ⟨files, source, hsheet⟩
  | given =>
    obtain ⟨rfl, hline⟩ := hshares
    rw [Overrides.forText_of_line hline] at hsheet
    exact ⟨files, source, hsheet⟩

/-- A stylesheet that an exploration answers with was read under the settings of the operation that
read it: of this one, if the workspace did not hold the stylesheet, and else of an earlier one.
Where all operations are given the same settings, these are the settings of all stylesheets. -/
theorem settings_of_explore (operations : List Operation)
    (hgraph : ((operations.foldl after empty).explore fs overrides entry).result = .ok graph)
    (hget : graph.get? path = some sheet) :
    (((operations.foldl after empty).sheets.get? path = none ∧
        ∃ source, fs.read? path = some source ∧ sheet.ReadAs fs (overrides.forFile path) source) ∨
      ((operations.foldl after empty).sheets.get? path = some sheet ∧
        ∃ operation ∈ operations, operation.Gives path sheet)) ∧
    ((∀ operation ∈ operations, operation.Shares overrides) →
      ∃ files source, sheet.ReadAs files (overrides.forFile path) source) := by
  rcases read_of_explore hgraph hget with hheld | ⟨hnone, source, hread, hsheet⟩
  · obtain ⟨operation, hmem, hgives⟩ := gives_of_held hheld
    exact ⟨.inr ⟨hheld, operation, hmem, hgives⟩, fun hshares => hgives.of_shares (hshares _ hmem)⟩
  · exact ⟨.inl ⟨hnone, source, hread, hsheet⟩, fun _ => ⟨fs, source, hsheet⟩⟩

/-- A stylesheet that imports another one, of which there are two in different directories. -/
def twofoldFiles : FileSystem where
  working := ['/']
  entries := .insert (.insert (.insert .empty "/main.terrace" (.file "@import part"))
    "/a/part.terrace" (.file "c")) "/b/part.terrace" (.file "d")

/-- Settings under which imports are looked for in a directory besides that of the stylesheet. -/
def lookingIn (directory : Text) : Overrides := { loadPaths := some [directory] }

/-- An exploration that looks for imports in the first directory. -/
def firstExploration : List Operation := [.explore twofoldFiles (lookingIn "/a") "/main.terrace"]

/-- A stylesheet that has been explored before was read by that exploration. -/
theorem settings_of_second_explore :
    ∃ graph sheet,
      ((firstExploration.foldl after empty).explore twofoldFiles (lookingIn "/b")
        "/main.terrace").result = .ok graph ∧
      graph.get? "/main.terrace" = some sheet ∧
      ∃ operation ∈ firstExploration, operation.Gives "/main.terrace" sheet := by
  have hrun : ((firstExploration.foldl after empty).explore twofoldFiles (lookingIn "/b")
      "/main.terrace").result.map (fun graph => (graph.get? "/main.terrace").isSome) = .ok true := by
    decide +kernel
  have hheld : ((firstExploration.foldl after empty).sheets.get? "/main.terrace").isSome = true := by
    decide +kernel
  obtain ⟨graph, hgraph, hsome⟩ := map_eq_ok.mp hrun
  obtain ⟨sheet, hget⟩ := Option.isSome_iff_exists.mp hsome
  refine ⟨graph, sheet, hgraph, hget, ?_⟩
  rcases (settings_of_explore firstExploration hgraph hget).1 with ⟨hnone, -⟩ | ⟨-, hgives⟩
  · rw [hnone] at hheld
    cases hheld
  · exact hgives

/-- The second of two explorations under different settings answers with a stylesheet that keeps the
settings of the first one, and the import that was found under these. -/
theorem settings_differ_on_second_explore :
    ∃ graph sheet,
      ((firstExploration.foldl after empty).explore twofoldFiles (lookingIn "/b")
        "/main.terrace").result = .ok graph ∧
      graph.get? "/main.terrace" = some sheet ∧
      sheet.options ≠ ((lookingIn "/b").forFile "/main.terrace").resolve ∧
      sheet.imports.map Document.SheetImport.path = (["/a/part.terrace"] : List Text) ∧
      twofoldFiles.find "part" ((lookingIn "/b").forFile "/main.terrace").resolve.searchPath =
        .ok "/b/part.terrace" := by
  have hrun : ((firstExploration.foldl after empty).explore twofoldFiles (lookingIn "/b")
      "/main.terrace").result.map (fun graph => (graph.get? "/main.terrace").map fun sheet =>
        (sheet.options, sheet.imports.map Document.SheetImport.path)) =
      .ok (some (((lookingIn "/a").forFile "/main.terrace").resolve, ["/a/part.terrace"])) := by
    decide +kernel
  obtain ⟨graph, hgraph, hget⟩ := map_eq_ok.mp hrun
  obtain ⟨sheet, hget, hsheet⟩ := Option.map_eq_some_iff.mp hget
  obtain ⟨hoptions, himports⟩ := Prod.mk.inj hsheet
  refine ⟨graph, sheet, hgraph, hget, ?_, himports, by decide +kernel⟩
  rw [hoptions]
  decide +kernel

end Workspace

end Stylesheet
