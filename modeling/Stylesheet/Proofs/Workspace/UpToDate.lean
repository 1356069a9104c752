import Stylesheet.Proofs.Document.Targets
import Stylesheet.Proofs.Workspace.Agreement

/-!
# Workspaces that are up to date

A workspace holds stylesheets that were read at some time, and files change. It is up to date as far
as it holds what the files would be read as now.

- `SourceTree`: a file system and the text of each file. `SourceTree.edit` changes a text and leaves
  alone which files there are and which of them can be read (`SourceTree.same_edit`).
- `Workspace.UpToDate`: the workspace holds what the files are read as, but for those that are
  stale.
- `UpToDate.insert`, `UpToDate.edit`, `UpToDate.forget`, `UpToDate.explore`: what the operations on
  a workspace make of this.
- `agree_of_upToDate`: workspaces that are up to date give the same answers where texts are the
  same.
-/

namespace Stylesheet

/-! ## Source trees -/

/-- A file system, and a text for each path: the content of the file that can be read there, if
there is one. -/
structure SourceTree where
  fs : FileSystem
  text : Text → Text
  text_eq : ∀ path content, fs.read? path = some content → text path = content

namespace SourceTree

variable {tree tree' : SourceTree} {overrides : Overrides} {path content : Text} {sheet : Sheet}

/-- A file system with the texts that can be read from it. -/
def ofFiles (fs : FileSystem) : SourceTree where
  fs := fs
  text path := (fs.read? path).getD []
  text_eq path content hread := by rw [hread, Option.getD_some]

/-- The tree in which the text at a path is another one. The file there changes if it can be
read. -/
def edit (tree : SourceTree) (path content : Text) : SourceTree where
  fs := if tree.fs.isReadable path then tree.fs.write path (.file content) else tree.fs
  text other := if path = other then content else tree.text other
  text_eq other now hread := by
    split at hread
    · rw [FileSystem.read?_write] at hread
      split at hread
      · rename_i heq
        rw [if_pos heq]
        exact Option.some.inj hread
      · rename_i hne
        rw [if_neg hne]
        exact tree.text_eq other now hread
    · -- a text that no file has can change, but it is not read
      rename_i hreadable
      have hne : path ≠ other := by
        rintro rfl
        exact hreadable (FileSystem.isReadable_iff.mpr ⟨now, hread⟩)
      rw [if_neg hne]
      exact tree.text_eq other now hread

/-- The trees have the same working directory, and the same files of them can be read. -/
structure Same (tree tree' : SourceTree) : Prop where
  working : tree.fs.working = tree'.fs.working
  readable : ∀ path, tree.fs.isReadable path = tree'.fs.isReadable path

theorem Same.refl (tree : SourceTree) : tree.Same tree := ⟨rfl, fun _ => rfl⟩

theorem Same.trans {tree'' : SourceTree} (h : tree.Same tree') (h' : tree'.Same tree'') :
    tree.Same tree'' :=
  ⟨h.working.trans h'.working, fun path => (h.readable path).trans (h'.readable path)⟩

theorem Same.resolve (h : tree.Same tree') (path : Text) :
    tree.fs.resolve path = tree'.fs.resolve path := by
  unfold FileSystem.resolve
  rw [h.working]

/-- An edit leaves alone which files can be read. -/
theorem same_edit (tree : SourceTree) (path content : Text) : tree.Same (tree.edit path content) := by
  unfold edit
  by_cases hreadable : tree.fs.isReadable path = true
  · refine ⟨?_, fun other => ?_⟩
    · simp only [if_pos hreadable]
      rfl
    · simp only [if_pos hreadable]
      rw [FileSystem.isReadable_write]
      by_cases heq : path = other
      · rw [if_pos heq, ← heq, hreadable]
      · rw [if_neg heq]
  · refine ⟨?_, fun other => ?_⟩
    · simp only [if_neg hreadable]
    · simp only [if_neg hreadable]

/-- The stylesheet that the text at a path is read as. -/
def read (tree : SourceTree) (overrides : Overrides) (path : Text) : Except SyntaxError Sheet :=
  Workspace.readSheet tree.fs overrides path (tree.text path)

/-- A text is read the same way in trees with the same files. -/
theorem read_congr (h : tree.Same tree') (htext : tree.text path = tree'.text path) :
    tree.read overrides path = tree'.read overrides path := by
  unfold read Workspace.readSheet
  rw [htext, Document.parse_congr h.working h.readable]

theorem serves_of_read (h : tree.read overrides path = .ok sheet) :
    ∀ imported ∈ sheet.imports, tree.fs.Serves imported.path :=
  Document.serves_of_mem_imports h

/-- The paths that an exploration may visit: that of the entry, and those of stylesheets that can be
read. -/
def MayVisit (tree : SourceTree) (entry path : Text) : Prop :=
  path = tree.fs.resolve entry ∨ tree.fs.Serves path

end SourceTree

/-! ## Workspaces -/

namespace Workspace

/-- The workspace holds, under absolute paths, the stylesheets that the files are read as, unless
the path is among the stale ones. -/
structure UpToDate (tree : SourceTree) (overrides : Overrides) (stale : List Text)
    (workspace : Workspace) : Prop where
  current : ∀ path sheet, workspace.sheets.get? path = some sheet → path ∉ stale →
    tree.read overrides path = .ok sheet
  place : ∀ path sheet, workspace.sheets.get? path = some sheet →
    Path.IsSheet path ∧ tree.fs.resolve path = path

variable {tree tree' : SourceTree} {overrides : Overrides} {stale : List Text}
  {workspace workspace' : Workspace} {path content entry : Text} {site : Site} {sheet : Sheet}

theorem upToDate_empty : empty.UpToDate tree overrides stale where
  current _ _ h := nomatch h
  place _ _ h := nomatch h

/-- The workspace stays up to date if it takes in a stylesheet as its file is read. -/
theorem UpToDate.insert (h : workspace.UpToDate tree overrides stale)
    (hsheet : tree.read overrides path = .ok sheet) (hpath : Path.IsSheet path)
    (habsolute : tree.fs.resolve path = path) :
    UpToDate tree overrides stale
      { workspace with sheets := workspace.sheets.insert path sheet } where
  current other held hget hfresh := by
    rw [Table.get?_insert] at hget
    split at hget
    · rename_i heq
      cases hget
      rw [← heq, hsheet]
    · exact h.current other held hget hfresh
  place other held hget := by
    rw [Table.get?_insert] at hget
    split at hget
    · rename_i heq
      rw [← heq]
      exact ⟨hpath, habsolute⟩
    · exact h.place other held hget

/-- An edit makes one path stale. -/
theorem UpToDate.edit (h : workspace.UpToDate tree overrides stale) (path content : Text) :
    workspace.UpToDate (tree.edit path content) overrides (path :: stale) where
  current other held hget hfresh := by
    have hne : path ≠ other := fun heq => hfresh (heq ▸ List.mem_cons_self)
    have htext : tree.text other = (tree.edit path content).text other := (if_neg hne).symm
    rw [← SourceTree.read_congr (tree.same_edit path content) htext]
    exact h.current other held hget fun hmem => hfresh (List.mem_cons_of_mem _ hmem)
  place other held hget := by
    rw [← (tree.same_edit path content).resolve]
    exact h.place other held hget

/-- A path that the workspace does not hold is not stale. -/
theorem UpToDate.filter (h : workspace.UpToDate tree overrides stale)
    (hpath : workspace.sheets.get? path = none) :
    workspace.UpToDate tree overrides (stale.filter (· ≠ path)) where
  current other held hget hfresh := by
    refine h.current other held hget fun hmem => hfresh (List.mem_filter.mpr ⟨hmem, ?_⟩)
    refine decide_eq_true ?_
    rintro rfl
    rw [hpath] at hget
    cases hget
  place := h.place

/-- Forgetting a stylesheet ends its being stale. -/
theorem UpToDate.forget (h : workspace.UpToDate tree overrides stale) (hpath : Path.IsSheet path) :
    (workspace.forget tree.fs (some path)).UpToDate tree overrides (stale.filter (· ≠ path)) := by
  -- the empty path would make it forget everything, but no stylesheet has this path
  have hne : path ≠ [] := by
    rintro rfl
    exact absurd (List.suffix_nil.mp hpath) (by decide)
  have hheld : ∀ other held,
      (workspace.forget tree.fs (some path)).sheets.get? other = some held →
        tree.fs.resolve path ≠ other ∧ workspace.sheets.get? other = some held := by
    intro other held hget
    rw [get?_sheets_forget hne] at hget
    split at hget
    · cases hget
    · rename_i hother
      exact ⟨hother, hget⟩
  refine ⟨fun other held hget hfresh => ?_, fun other held hget => ?_⟩
  · obtain ⟨hother, hold⟩ := hheld other held hget
    refine h.current other held hold fun hmem => hfresh (List.mem_filter.mpr ⟨hmem, ?_⟩)
    refine decide_eq_true ?_
    -- what is held is held under its absolute path, and this one has been forgotten
    rintro rfl
    exact hother (h.place _ held hold).2
  · exact h.place other held (hheld other held hget).2

/-! ## Answers -/

/-- What a workspace without stale paths answers is what the file is read as. -/
theorem UpToDate.read_of_lookup (h : workspace.UpToDate tree overrides [])
    (hlookup : workspace.lookup tree.fs overrides path site = .ok sheet) :
    tree.read overrides path = .ok sheet := by
  rcases lookup_eq_ok.mp hlookup with hheld | ⟨-, source, hread, hsheet⟩
  · exact h.current path sheet hheld List.not_mem_nil
  · unfold SourceTree.read
    rw [tree.text_eq path source hread]
    exact hsheet

/-- The answer for a file that can be read, or is held, is what the file is read as. -/
theorem UpToDate.lookup_eq (h : workspace.UpToDate tree overrides [])
    (hpath : tree.fs.isReadable path = true ∨ (workspace.sheets.get? path).isSome = true)
    (site : Site) : workspace.lookup tree.fs overrides path site = tree.read overrides path := by
  cases hheld : workspace.sheets.get? path with
  | some held => rw [lookup_of_get? hheld, h.current path held hheld List.not_mem_nil]
  | none =>
    rcases hpath with hreadable | hsome
    · obtain ⟨source, hread⟩ := FileSystem.isReadable_iff.mp hreadable
      unfold lookup SourceTree.read
      rw [hheld, hread, tree.text_eq path source hread]
    · rw [hheld] at hsome
      cases hsome

theorem UpToDate.confined (h : workspace.UpToDate tree overrides []) (entry : Text) :
    workspace.Confined tree.fs overrides (tree.MayVisit entry) := by
  intro path _ site sheet hlookup imported himported
  exact .inr (SourceTree.serves_of_read (h.read_of_lookup hlookup) imported himported)

/-- Two workspaces that are up to date give the same answers for files that can be read or are held,
where the texts of these are the same. -/
theorem agree_of_upToDate {S : Text → Prop} (h : workspace.UpToDate tree overrides [])
    (h' : workspace'.UpToDate tree' overrides []) (hsame : tree.Same tree')
    (htext : ∀ path, S path → tree.text path = tree'.text path)
    (hpath : ∀ path, S path → tree.fs.isReadable path = true ∨
      (workspace.sheets.get? path).isSome = true ∧ (workspace'.sheets.get? path).isSome = true)
    (hconfined : workspace.Confined tree.fs overrides S) :
    workspace.Agree tree.fs tree'.fs overrides workspace' S where
  answers path hmem site := by
    have hleft : workspace.lookup tree.fs overrides path site = tree.read overrides path :=
      h.lookup_eq ((hpath path hmem).imp_right And.left) site
    have hright : workspace'.lookup tree'.fs overrides path site = tree'.read overrides path := by
      refine h'.lookup_eq ?_ site
      rw [← hsame.readable]
      exact (hpath path hmem).imp_right And.right
    rw [hleft, hright, SourceTree.read_congr hsame (htext path hmem)]
  confined := hconfined

/-! ## Explorations -/

/-- Exploring keeps a workspace up to date, even if it fails. -/
theorem UpToDate.explore (h : workspace.UpToDate tree overrides [])
    (hentry : Path.IsSheet (tree.fs.resolve entry)) :
    (workspace.explore tree.fs overrides entry).workspace.UpToDate tree overrides [] := by
  obtain ⟨result, final, hvisits, hexplore⟩ := explore_visits tree.fs overrides workspace entry
  rw [hexplore]
  have hstart : Traversal.Faithful tree.fs overrides workspace { workspace } :=
    Traversal.faithful_start workspace
  have hfaithful := Traversal.faithful_of_visits hvisits hstart
  have hvisited := Traversal.mem_of_visits (h.confined entry) hvisits hstart
    (List.forall_mem_singleton.mpr (.inl rfl)) fun path sheet hget => nomatch hget
  -- what the workspace holds now was visited, or was held before
  refine ⟨fun path sheet hget _ => ?_, fun path sheet hget => ?_⟩
  · cases hgraph : final.graph.get? path with
    | none =>
      rw [(hfaithful.untouched path hgraph).1] at hget
      exact h.current path sheet hget List.not_mem_nil
    | some visited =>
      rw [hfaithful.kept path visited hgraph] at hget
      cases hget
      exact h.read_of_lookup (hfaithful.lookup_of_get? hgraph ⟨1, none⟩)
  · cases hgraph : final.graph.get? path with
    | none =>
      rw [(hfaithful.untouched path hgraph).1] at hget
      exact h.place path sheet hget
    | some visited =>
      rcases hvisited path visited hgraph with rfl | hserves
      · exact ⟨hentry, tree.fs.resolve_resolve entry⟩
      · exact ⟨hserves.isSheet, hserves.absolute⟩

end Workspace

end Stylesheet
