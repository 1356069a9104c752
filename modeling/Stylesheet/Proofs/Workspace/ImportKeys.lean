import Stylesheet.Proofs.FileSystem.Search
import Stylesheet.Proofs.Workspace.Blame

/-!
# What is found is a key

The path that is found for an import is the one under which the imported stylesheet is kept, so that
nothing has to be resolved again between the two.

- `Reading.outcome_resolveEntry`: an entry becomes the import of what is found for its name.
- `Document.found_of_askings`: of a document that is read every name was found, and is imported so.
- `Traversal.Keyed`: a path is the key of a stylesheet, in the graph and in both tables of the
  workspace.
- `Traversal.mem_keys_of_visits`: a traversal that succeeds has visited all that is imported.
- `FileSystem.find_exact`: which file is found, and what is kept under its path.
-/

namespace Stylesheet

open Parsing

/-! ## Entries -/

section

variable {fs : FileSystem} {directories : List Text} {line : Line} {name path : Text}

/-- An entry becomes the import of what is found for its name. -/
theorem Reading.outcome_resolveEntry (hname : ¬cssExtension <:+ name) (state : Unit) :
    (resolveEntry (.standard fs) directories line (.sheet name)).outcome state =
      (((fs.find name directories).map Construct.fileImport).mapError
        fun message => line.fault (.reported message), state) := by
  have hfind : ((Services.standard fs).find directories line name).outcome state =
      ((fs.find name directories).mapError fun message => line.fault (.reported message), state) :=
    Services.outcome_call _ _
  unfold resolveEntry
  rw [outcome_bind, hfind]
  cases hfound : fs.find name directories with
  | error message => rfl
  | ok path =>
    show (if cssExtension.isSuffixOf path then _ else _ : Parsing Unit _).outcome state = _
    rw [FileSystem.not_css_of_found hname hfound]
    rfl

end

/-! ## Documents -/

namespace Document

variable {fs : FileSystem} {overrides : Overrides} {source name : Text} {sheet : Sheet} {line : Line}

/-- Every name for which a document that is read asks was found, and is imported as what was
found. -/
theorem found_of_askings (hparse : parse fs overrides source = .ok sheet)
    (hasked : (line, .sheet name) ∈ askings overrides source) (hname : ¬cssExtension <:+ name) :
    ∃ path, fs.find name overrides.resolve.searchPath = .ok path ∧
      path ∈ sheet.imports.map SheetImport.path := by
  have hyields := parse_eq_ok.mp hparse
  obtain ⟨calls, hnoted⟩ := recorded_of_parseWith hyields
  obtain ⟨hserved, hputs⟩ := (runs_of_recorded hnoted).all_served
  obtain ⟨call, hcall, before, after, hput⟩ := hputs line _ hasked
  have hanswered := hserved call hcall
  cases hput with
  | @sheet _ _ _ answer hanswer =>
    have hanswer : (fs.find name overrides.resolve.searchPath, ()) = (answer, ()) := hanswer
    cases answer with
    | error message => cases hanswered
    | ok path =>
      have hfind := (Prod.mk.inj hanswer).1
      have hcss := FileSystem.not_css_of_found hname hfind
      exact ⟨path, hfind, mem_imports_of_find hparse hasked hfind hcss⟩

end Document

/-! ## Keys -/

namespace Traversal

variable {fs : FileSystem} {overrides : Overrides} {origin : Workspace} {entry importer path : Text}
  {t final : Traversal} {sheet : Sheet}

/-- A path is the key of a stylesheet: under it the stylesheet is visited and kept, and its imports
are noted. -/
structure Keyed (t : Traversal) (path : Text) (sheet : Sheet) : Prop where
  visited : t.graph.get? path = some sheet
  kept : t.workspace.sheets.get? path = some sheet
  noted : t.workspace.imports.get? path =
    some (sheet.imports.map Document.SheetImport.path).eraseDups

theorem Faithful.keyed (h : Faithful fs overrides origin t) (hget : t.graph.get? path = some sheet) :
    t.Keyed path sheet :=
  ⟨hget, h.kept path sheet hget, h.noted path sheet hget⟩

/-- A traversal that succeeds has visited all that its stylesheets import. -/
theorem mem_keys_of_visits
    (h : Visits fs overrides [{ path := entry }] { workspace := origin } (.ok ()) final)
    (hget : final.graph.get? importer = some sheet)
    (hpath : path ∈ sheet.imports.map Document.SheetImport.path) : path ∈ final.graph.keys := by
  have hfaithful := faithful_of_visits h (faithful_start origin)
  obtain ⟨order, horder, hkeys⟩ := preorder_of_visits h rfl (faithful_start origin)
    (List.forall_mem_singleton.mpr fun path hpath => absurd hpath List.not_mem_nil)
  have hkeys : final.graph.keys = order := hkeys
  rw [hkeys]
  refine (horder.mem_of_mem_next (hkeys ▸ Table.mem_keys_of_get? hget) ?_).resolve_left List.not_mem_nil
  rw [Workspace.targets_of_lookup (hfaithful.lookup_of_get? hget ⟨1, none⟩)]
  exact hpath

end Traversal

/-! ## What is found -/

namespace FileSystem

/-- A name, unless it is that of a plain style sheet, stands for the first readable file in the
order of the directories, where in each of them the partial comes before the stylesheet beside it.
No file is found only if none of these can be read. What is found is the normal path of a
stylesheet, and this very path is what an entry becomes the import of. In a document that is read
every name has been found. Wherever such a document is visited, in whatever files and workspace, the
path is noted among its imports and is the key of what is visited there, and it is visited unless
the exploration fails. -/
theorem find_exact {name : Text} (hname : ¬cssExtension <:+ name) (fs : FileSystem)
    (directories : List Text) :
    (∀ path, fs.find name directories = .ok path ↔
      ∃ front directory back, directories = front ++ directory :: back ∧
        (∀ earlier ∈ front, fs.Lacks name earlier) ∧ fs.Offers name directory path) ∧
    (∀ message, fs.find name directories = .error message ↔
      message = "File to import not found or unreadable: " ++ name ++ "." ∧
        ∀ directory ∈ directories, fs.Lacks name directory) ∧
    (∀ directory, ∃ folder last, '/' ∉ last ∧ Path.IsSheet last ∧
      fs.sheetPath name directory = folder ++ '/' :: last ∧
      fs.partialPath name directory = folder ++ '/' :: '_' :: last) ∧
    (∀ path, fs.find name directories = .ok path →
      Path.IsNormal path ∧ Path.IsSheet path ∧ ∀ files : FileSystem, files.resolve path = path) ∧
    (∀ line (state : Unit), (Reading.resolveEntry (.standard fs) directories line (.sheet name)).outcome state =
      (((fs.find name directories).map Construct.fileImport).mapError
        fun message => line.fault (.reported message), state)) ∧
    ∀ overrides source sheet line, Document.parse fs overrides source = .ok sheet →
      (line, .sheet name) ∈ Document.askings overrides source →
      ∃ path, fs.find name overrides.resolve.searchPath = .ok path ∧
        (∃ node ∈ sheet.children, node.construct = .fileImport path) ∧
        ∀ files settings workspace entry importer, ∃ result final,
          Traversal.Visits files settings [{ path := files.resolve entry }] { workspace } result final ∧
          workspace.explore files settings entry =
            ⟨result.map fun _ => final.graph, final.workspace, final.notices⟩ ∧
          (final.graph.get? importer = some sheet →
            (∃ noted, final.workspace.imports.get? importer = some noted ∧ path ∈ noted) ∧
            (∀ imported, final.graph.get? path = some imported → final.Keyed path imported) ∧
            (result = .ok () → ∃ imported, final.Keyed path imported)) := by
  refine ⟨fun _ => find_eq_ok_iff hname, fun _ => find_eq_error_iff hname, fs.beside_sheetPath name, ?_,
    fun _ _ => Reading.outcome_resolveEntry hname _, ?_⟩
  · intro path hfind
    have hserves := serves_of_find hfind (not_css_of_found hname hfind)
    exact ⟨hserves.isNormal, hserves.isSheet, hserves.isNormal.resolve_eq⟩
  · intro overrides source sheet line hparse hasked
    obtain ⟨path, hfind, himported⟩ := Document.found_of_askings hparse hasked hname
    refine ⟨path, hfind, Workspace.mem_map_path_imports.mp himported, ?_⟩
    intro files settings workspace entry importer
    obtain ⟨result, final, hvisits, hexplore⟩ :=
      Workspace.explore_visits files settings workspace entry
    have hfaithful := Traversal.faithful_of_visits hvisits (Traversal.faithful_start workspace)
    refine ⟨result, final, hvisits, hexplore, fun hget => ⟨?_, ?_, ?_⟩⟩
    · exact ⟨_, hfaithful.noted importer sheet hget, List.mem_eraseDups.mpr himported⟩
    · exact fun imported hvisited => hfaithful.keyed hvisited
    · rintro rfl
      obtain ⟨imported, hvisited⟩ :=
        Table.exists_get?_of_mem_keys (Traversal.mem_keys_of_visits hvisits hget himported)
      exact ⟨imported, hfaithful.keyed hvisited⟩

/-- A directory and a locked file stand where a name is looked for first. -/
def hinderedFiles : FileSystem where
  working := "/a"
  entries := .insert (.insert (.insert (.insert .empty "/a/main.terrace" (.file "@import n"))
    "/a/_n.terrace" .directory) "/a/n.terrace" .locked) "/b/n.terrace" (.file "c")

/-- They are passed by for the file in the second directory, which is then kept under its path.
Without that directory no file is found. -/
theorem find_exact_of_hindered :
    ¬cssExtension <:+ "n" ∧
      hinderedFiles.find "n" ["/a", "/b"] = .ok "/b/n.terrace" ∧
      hinderedFiles.find "n" ["/a"] = .error "File to import not found or unreadable: n." ∧
      ∃ (final : Traversal) (imported : Sheet),
        (Workspace.empty.explore hinderedFiles { loadPaths := some ["/b"] } "main.terrace").result =
          .ok final.graph ∧
        final.Keyed "/b/n.terrace" imported := by
  have hname : ¬cssExtension <:+ "n" := by decide
  have hlacks : hinderedFiles.Lacks "n" "/a" :=
    ⟨mt isReadable_iff_isFile.mpr (by decide +kernel), mt isReadable_iff_isFile.mpr (by decide +kernel)⟩
  have hplace : hinderedFiles.sheetPath "n" "/b" = "/b/n.terrace" := by decide +kernel
  have hoffers : hinderedFiles.Offers "n" "/b" "/b/n.terrace" :=
    hplace ▸ .plain (mt isReadable_iff_isFile.mpr (by decide +kernel))
      (isReadable_iff_isFile.mp (by decide +kernel))
  have hrun : (Workspace.empty.explore hinderedFiles { loadPaths := some ["/b"] }
      "main.terrace").result.map Table.keys = .ok ["/a/main.terrace", "/b/n.terrace"] := by
    decide +kernel
  have hsource : hinderedFiles.read? "/a/main.terrace" = some "@import n" := by decide +kernel
  have hasks : (Document.askings (Overrides.forFile { loadPaths := some ["/b"] } "/a/main.terrace")
      "@import n").map Prod.snd = [.sheet "n"] := by
    decide +kernel
  obtain ⟨hfinds, -, -, -, -, hkeys⟩ := find_exact hname hinderedFiles ["/a", "/b"]
  obtain ⟨-, hfails, -⟩ := find_exact hname hinderedFiles ["/a"]
  have hfound : hinderedFiles.find "n" ["/a", "/b"] = .ok "/b/n.terrace" :=
    (hfinds _).mpr ⟨["/a"], "/b", [], rfl, List.forall_mem_singleton.mpr hlacks, hoffers⟩
  refine ⟨hname, hfound, (hfails _).mpr ⟨rfl, List.forall_mem_singleton.mpr hlacks⟩, ?_⟩
  -- the importing stylesheet is read as its file, and asks for the name
  obtain ⟨graph, hgraph, hvisited⟩ := map_eq_ok.mp hrun
  obtain ⟨sheet, hsheet⟩ := Table.exists_get?_of_mem_keys (hvisited ▸ List.mem_cons_self)
  obtain ⟨_, rfl, -, hfaithful, -⟩ := Workspace.steps_of_explore hgraph
  obtain hheld | ⟨-, source, hread, hparse⟩ :=
    Workspace.lookup_eq_ok.mp (hfaithful.lookup_of_get? hsheet ⟨1, none⟩)
  · cases hheld
  cases hsource.symm.trans hread
  obtain ⟨⟨line, _⟩, hasked, rfl⟩ := List.mem_map.mp (hasks ▸ List.mem_cons_self)
  obtain ⟨path, hfind, -, hexplorations⟩ := hkeys _ _ sheet line hparse hasked
  cases hfound.symm.trans hfind
  obtain ⟨result, final, -, hexplore, hvisits⟩ := hexplorations hinderedFiles
    { loadPaths := some ["/b"] } .empty "main.terrace" "/a/main.terrace"
  rw [hexplore] at hgraph ⊢
  obtain ⟨_, rfl, hsame⟩ := map_eq_ok.mp hgraph
  obtain ⟨-, -, hdone⟩ := hvisits (hsame ▸ hsheet)
  obtain ⟨imported, hkeyed⟩ := hdone rfl
  exact ⟨final, imported, rfl, hkeyed⟩

end FileSystem

end Stylesheet
