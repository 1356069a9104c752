import Stylesheet.Proofs.Workspace.Preorder
import Stylesheet.Proofs.Workspace.Visits
import Stylesheet.Workspace.Graph

/-!
# An exploration finds what can be reached

- `Traversal.Faithful`: the invariant of a traversal: it gives the answers of the workspace that it
  started from, keeps the stylesheets it has visited, notes their imports, and leaves the others
  alone.
- `faithful_of_visits`: the recursion preserves it, whether it fails or not.
- `Workspace.Confined`, `mem_of_visits`: a set of paths that no import leaves, and no visit either.
- `preorder_of_visits`: the stylesheets visited are those found from the agenda, in preorder.
- `Workspace.explore_reaches`: an exploration ends, and one that succeeds lists what can be reached.
-/

namespace Stylesheet

variable {fs : FileSystem} {overrides : Overrides} {origin : Workspace}

/-- No import leads out of a set of paths. -/
def Workspace.Confined (fs : FileSystem) (overrides : Overrides) (workspace : Workspace)
    (S : Text → Prop) : Prop :=
  ∀ path, S path → ∀ site sheet, workspace.lookup fs overrides path site = .ok sheet →
    ∀ imported ∈ sheet.imports, S imported.path

namespace Traversal

variable {visit : Visit} {agenda : List Visit} {t final : Traversal} {sheet : Sheet}
  {result : Except SyntaxError Unit}

/-! ## The invariant -/

/-- A traversal that started from a workspace gives its answers, keeps the stylesheets visited and
notes their imports, and has touched no others. -/
structure Faithful (fs : FileSystem) (overrides : Overrides) (origin : Workspace) (t : Traversal) :
    Prop where
  answers : ∀ path site,
    t.workspace.lookup fs overrides path site = origin.lookup fs overrides path site
  kept : ∀ path sheet, t.graph.get? path = some sheet → t.workspace.sheets.get? path = some sheet
  noted : ∀ path sheet, t.graph.get? path = some sheet →
    t.workspace.imports.get? path = some (sheet.imports.map Document.SheetImport.path).eraseDups
  untouched : ∀ path, t.graph.get? path = none →
    t.workspace.sheets.get? path = origin.sheets.get? path ∧
      t.workspace.imports.get? path = origin.imports.get? path

theorem faithful_start (origin : Workspace) :
    Faithful fs overrides origin { workspace := origin } where
  answers _ _ := rfl
  kept _ _ h := nomatch h
  noted _ _ h := nomatch h
  untouched _ _ := ⟨rfl, rfl⟩

/-- What is visited is what the workspace at the start has. -/
theorem Faithful.lookup_of_get? {path : Text} (h : Faithful fs overrides origin t)
    (hvisited : t.graph.get? path = some sheet) (site : Site) :
    origin.lookup fs overrides path site = .ok sheet := by
  rw [← h.answers path site]
  exact Workspace.lookup_of_get? (h.kept path sheet hvisited) site

/-- What answers a visit is what the workspace at the start has. -/
theorem Faithful.lookup_of_answer (h : Faithful fs overrides origin t)
    (hanswer : t.answer fs overrides visit = .ok sheet) :
    origin.lookup fs overrides visit.path (visit.site.getD ⟨1, none⟩) = .ok sheet := by
  rw [← h.answers]
  exact hanswer

theorem get?_visited (path other : Text) :
    (t.visited path sheet).graph.get? other =
      if path = other then some sheet else t.graph.get? other :=
  Table.get?_insert _ _ _ _

theorem get?_sheets_visited (hanswer : t.answer fs overrides visit = .ok sheet) (other : Text) :
    (t.visited visit.path sheet).workspace.sheets.get? other =
      if visit.path = other then some sheet else t.workspace.sheets.get? other :=
  Workspace.get?_keep hanswer other

theorem get?_imports_visited (path other : Text) :
    (t.visited path sheet).workspace.imports.get? other =
      if path = other then some (sheet.imports.map Document.SheetImport.path).eraseDups
      else t.workspace.imports.get? other := by
  show ((t.workspace.keep path sheet).record path sheet.imports).imports.get? other = _
  rw [Workspace.get?_imports_record, Workspace.imports_keep]

/-- One visit preserves the invariant. -/
theorem Faithful.visited (h : Faithful fs overrides origin t)
    (hanswer : t.answer fs overrides visit = .ok sheet) :
    Faithful fs overrides origin (t.visited visit.path sheet) where
  answers path site := by
    rw [← h.answers path site]
    exact Workspace.lookup_keep hanswer path site
  kept path other hget := by
    rw [get?_visited] at hget
    rw [get?_sheets_visited hanswer]
    split at hget
    · rename_i heq
      rw [if_pos heq, hget]
    · rename_i hne
      rw [if_neg hne, h.kept path other hget]
  noted path other hget := by
    rw [get?_visited] at hget
    rw [get?_imports_visited]
    split at hget
    · rename_i heq
      cases hget
      rw [if_pos heq]
    · rename_i hne
      rw [if_neg hne, h.noted path other hget]
  untouched path hget := by
    -- what has not been visited after the visit is another stylesheet
    rw [get?_visited] at hget
    split at hget
    · cases hget
    · rename_i hne
      rw [get?_sheets_visited hanswer, get?_imports_visited, if_neg hne, if_neg hne]
      exact h.untouched path hget

/-- A notice touches no stylesheet. -/
theorem Faithful.circled (h : Faithful fs overrides origin t) (visit : Visit) :
    Faithful fs overrides origin (t.circled visit) :=
  ⟨h.answers, h.kept, h.noted, h.untouched⟩

/-- The recursion preserves the invariant, even if it fails. -/
theorem faithful_of_visits (h : Visits fs overrides agenda t result final)
    (hstart : Faithful fs overrides origin t) : Faithful fs overrides origin final := by
  induction h with
  | done | failed => exact hstart
  | @circle visit _ _ _ _ _ _ ih => exact ih (hstart.circled visit)
  | known _ _ _ ih => exact ih hstart
  | entered _ _ hanswer _ _ ihInner ihRest => exact ihRest (ihInner (hstart.visited hanswer))
  | stopped _ _ hanswer _ ihInner => exact ihInner (hstart.visited hanswer)

/-! ## Sets that no import leaves -/

variable {S : Text → Prop}

theorem mem_of_mem_onward (hconfined : origin.Confined fs overrides S)
    (hfaithful : Faithful fs overrides origin t) (hvisit : S visit.path)
    (hanswer : t.answer fs overrides visit = .ok sheet) :
    ∀ next ∈ onward visit sheet, S next.path := by
  intro next hnext
  obtain ⟨imported, himported, rfl⟩ := List.mem_map.mp hnext
  exact hconfined visit.path hvisit _ sheet (hfaithful.lookup_of_answer hanswer) imported himported

/-- From within such a set, only members of it are visited. -/
theorem mem_of_visits (hconfined : origin.Confined fs overrides S)
    (h : Visits fs overrides agenda t result final) (hfaithful : Faithful fs overrides origin t)
    (hagenda : ∀ visit ∈ agenda, S visit.path)
    (hgraph : ∀ path sheet, t.graph.get? path = some sheet → S path) :
    ∀ path sheet, final.graph.get? path = some sheet → S path := by
  -- one visit, which is the only step that changes the graph
  have hvisited : ∀ {t : Traversal} {visit : Visit} {sheet : Sheet}, S visit.path →
      (∀ path sheet, t.graph.get? path = some sheet → S path) →
      ∀ path other, (t.visited visit.path sheet).graph.get? path = some other → S path := by
    intro t visit sheet hvisit hgraph path other hget
    rw [get?_visited] at hget
    split at hget
    · rename_i heq
      rw [← heq]
      exact hvisit
    · exact hgraph path other hget
  induction h with
  | done | failed => exact hgraph
  | @circle visit _ _ _ _ _ _ ih =>
    obtain ⟨-, hagenda⟩ := List.forall_mem_cons.mp hagenda
    exact ih (hfaithful.circled visit) hagenda hgraph
  | known _ _ _ ih =>
    obtain ⟨-, hagenda⟩ := List.forall_mem_cons.mp hagenda
    exact ih hfaithful hagenda hgraph
  | entered _ _ hanswer hinner _ ihInner ihRest =>
    obtain ⟨hvisit, hagenda⟩ := List.forall_mem_cons.mp hagenda
    have hinside := ihInner (hfaithful.visited hanswer)
      (mem_of_mem_onward hconfined hfaithful hvisit hanswer) (hvisited hvisit hgraph)
    exact ihRest (faithful_of_visits hinner (hfaithful.visited hanswer)) hagenda hinside
  | stopped _ _ hanswer _ ihInner =>
    obtain ⟨hvisit, -⟩ := List.forall_mem_cons.mp hagenda
    exact ihInner (hfaithful.visited hanswer)
      (mem_of_mem_onward hconfined hfaithful hvisit hanswer) (hvisited hvisit hgraph)

/-! ## The order of the visits -/

theorem keys_visited {path : Text} (hnew : t.graph.contains path = false) :
    (t.visited path sheet).graph.keys = t.graph.keys ++ [path] := by
  show (t.graph.insert path sheet).keys = _
  rw [Table.keys_insert, if_neg (Table.not_mem_keys_of_contains hnew)]

theorem map_path_onward : (onward visit sheet).map Visit.path =
    sheet.imports.map Document.SheetImport.path := by
  unfold onward
  rw [List.map_map]
  rfl

/-- The stylesheets visited are those found from the agenda. What is on the chain of a visit has
been visited, so that noticing a circle skips a stylesheet just as well. -/
theorem preorder_of_visits (h : Visits fs overrides agenda t result final) (hresult : result = .ok ())
    (hstart : Faithful fs overrides origin t)
    (hchains : ∀ visit ∈ agenda, ∀ path ∈ visit.chain, path ∈ t.graph.keys) :
    ∃ order,
      Preorder (origin.targets fs overrides) t.graph.keys (agenda.map Visit.path) order ∧
        final.graph.keys = t.graph.keys ++ order := by
  -- the keys of the graph are what has been seen, and each visit appends what it finds
  induction h with
  | done => exact ⟨[], .done, (List.append_nil _).symm⟩
  | failed | stopped => cases hresult
  | @circle visit agenda t _ _ hchain _ ih =>
    obtain ⟨hvisit, hchains⟩ := List.forall_mem_cons.mp hchains
    obtain ⟨order, horder, hkeys⟩ := ih hresult (hstart.circled visit) hchains
    exact ⟨order, .skip (hvisit _ hchain) horder, hkeys⟩
  | known _ hknown _ ih =>
    obtain ⟨-, hchains⟩ := List.forall_mem_cons.mp hchains
    obtain ⟨order, horder, hkeys⟩ := ih hresult hstart hchains
    exact ⟨order, .skip (Table.contains_iff_mem_keys.mp hknown) horder, hkeys⟩
  | @entered visit agenda t middle final sheet _ hchain hnew hanswer hinner _ ihInner ihRest =>
    obtain ⟨hvisit, hchains⟩ := List.forall_mem_cons.mp hchains
    have hvisited := hstart.visited hanswer
    have hkeys : (t.visited visit.path sheet).graph.keys = t.graph.keys ++ [visit.path] :=
      keys_visited hnew
    -- the chain of an import is that of its importer, and the importer, which is visited now
    obtain ⟨inner, hpreorder, hmiddle⟩ := ihInner rfl hvisited (by
      intro next hnext path hpath
      obtain ⟨_, -, rfl⟩ := List.mem_map.mp hnext
      rw [hkeys]
      rcases List.mem_append.mp hpath with hpath | hpath
      · exact List.mem_append_left _ (hvisit path hpath)
      · exact List.mem_append_right _ hpath)
    rw [hkeys, List.append_assoc] at hmiddle
    obtain ⟨order, horder, hfinal⟩ := ihRest hresult (faithful_of_visits hinner hvisited) (by
      intro other hother path hpath
      rw [hmiddle]
      exact List.mem_append_left _ (hchains other hother path hpath))
    have hnext : origin.targets fs overrides visit.path =
        (onward visit sheet).map Visit.path := by
      rw [map_path_onward]
      exact Workspace.targets_of_lookup (hstart.lookup_of_answer hanswer)
    refine ⟨visit.path :: inner ++ order,
      .enter (Table.not_mem_keys_of_contains hnew) ?_ ?_, ?_⟩
    · rw [hkeys] at hpreorder
      rw [hnext]
      exact hpreorder
    · rw [hmiddle] at horder
      exact horder
    · rw [hfinal, hmiddle, List.append_assoc]
      rfl

end Traversal

/-! ## Explorations -/

namespace Workspace

/-- An exploration is one run of the recursion. -/
theorem explore_visits (fs : FileSystem) (overrides : Overrides) (workspace : Workspace)
    (entry : Text) :
    ∃ result final,
      Traversal.Visits fs overrides [{ path := fs.resolve entry }] { workspace } result final ∧
        workspace.explore fs overrides entry =
          ⟨result.map fun _ => final.graph, final.workspace, final.notices⟩ :=
  ⟨_, _, Traversal.visits_run _ _, rfl⟩

/-- An exploration that succeeds has visited the entry and all that is found from it. -/
theorem steps_of_explore {workspace : Workspace} {entry : Text} {graph : Table Text Sheet}
    (h : (workspace.explore fs overrides entry).result = .ok graph) :
    ∃ final, final.graph = graph ∧
      (workspace.explore fs overrides entry).workspace = final.workspace ∧
      Traversal.Faithful fs overrides workspace final ∧
      Preorder (workspace.targets fs overrides) [] [fs.resolve entry] graph.keys := by
  obtain ⟨result, final, hvisits, hexplore⟩ := explore_visits fs overrides workspace entry
  rw [hexplore] at h ⊢
  obtain ⟨_, hresult, rfl⟩ := map_eq_ok.mp h
  obtain ⟨order, horder, hkeys⟩ := Traversal.preorder_of_visits hvisits hresult
    (Traversal.faithful_start workspace)
    (List.forall_mem_singleton.mpr fun path hpath => absurd hpath List.not_mem_nil)
  have hkeys : final.graph.keys = order := hkeys
  refine ⟨final, rfl, rfl, ?_, ?_⟩
  · exact Traversal.faithful_of_visits hvisits (Traversal.faithful_start workspace)
  · rw [hkeys]
    exact horder

/-- An exploration comes to an end, whatever imports what. If it succeeds, it lists the entry and
all that can be reached from it, each stylesheet once, in depth-first preorder, and as the workspace
holds it or else as its file is read. Afterwards the workspace holds these and their imports, and
has kept everything else. -/
theorem explore_reaches (fs : FileSystem) (overrides : Overrides) (workspace : Workspace)
    (entry : Text) :
    (∃ result final,
      Traversal.Visits fs overrides [{ path := fs.resolve entry }] { workspace } result final ∧
        workspace.explore fs overrides entry =
          ⟨result.map fun _ => final.graph, final.workspace, final.notices⟩) ∧
    ∀ graph, (workspace.explore fs overrides entry).result = .ok graph →
      graph.keys.head? = some (fs.resolve entry) ∧ graph.keys.Nodup ∧
      Preorder (workspace.targets fs overrides) [] [fs.resolve entry] graph.keys ∧
      (∀ path, path ∈ graph.keys ↔
        Reaches (workspace.targets fs overrides) (fs.resolve entry) path) ∧
      (∀ path sheet, graph.get? path = some sheet →
        (workspace.sheets.get? path = some sheet ∨
          workspace.sheets.get? path = none ∧ ∃ source, fs.read? path = some source ∧
            readSheet fs overrides path source = .ok sheet) ∧
        (workspace.explore fs overrides entry).workspace.sheets.get? path = some sheet ∧
        (workspace.explore fs overrides entry).workspace.imports.get? path =
          some (sheet.imports.map Document.SheetImport.path).eraseDups) ∧
      ∀ path, path ∉ graph.keys →
        (workspace.explore fs overrides entry).workspace.sheets.get? path =
          workspace.sheets.get? path ∧
        (workspace.explore fs overrides entry).workspace.imports.get? path =
          workspace.imports.get? path := by
  refine ⟨explore_visits fs overrides workspace entry, fun graph hgraph => ?_⟩
  obtain ⟨final, rfl, hworkspace, hfaithful, horder⟩ := steps_of_explore hgraph
  rw [hworkspace]
  refine ⟨horder.head?_eq, horder.nodup, horder, fun path => horder.mem_iff_reaches, ?_, ?_⟩
  · intro path sheet hget
    have hlookup := hfaithful.lookup_of_get? hget ⟨1, none⟩
    exact ⟨lookup_eq_ok.mp hlookup, hfaithful.kept path sheet hget, hfaithful.noted path sheet hget⟩
  · intro path hpath
    exact hfaithful.untouched path (Table.get?_eq_none_of_not_mem_keys hpath)

/-- Two stylesheets that import each other, one of which imports itself as well. -/
def circularFiles : FileSystem where
  working := ['/']
  entries := .insert (.insert .empty "/a.terrace" (.file "@import b")) "/b.terrace"
    (.file "@import a, b")

/-- Both of them are listed, each once. -/
theorem explore_reaches_of_circle :
    ∃ graph, (empty.explore circularFiles {} "a.terrace").result = .ok graph ∧
      graph.keys = (["/a.terrace", "/b.terrace"] : List Text) ∧
      Preorder (empty.targets circularFiles {}) [] [("/a.terrace" : Text)] graph.keys := by
  have hrun : (empty.explore circularFiles {} "a.terrace").result.map Table.keys =
      .ok (["/a.terrace", "/b.terrace"] : List Text) := by
    decide +kernel
  obtain ⟨graph, hgraph, hkeys⟩ := map_eq_ok.mp hrun
  obtain ⟨-, -, hpreorder, -⟩ := (explore_reaches _ _ _ _).2 graph hgraph
  have hentry : circularFiles.resolve "a.terrace" = ("/a.terrace" : Text) := by decide +kernel
  rw [hentry] at hpreorder
  exact ⟨graph, hgraph, hkeys, hpreorder⟩

end Workspace

end Stylesheet
