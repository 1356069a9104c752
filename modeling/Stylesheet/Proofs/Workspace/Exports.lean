import Stylesheet.Proofs.Document.Encoding
import Stylesheet.Proofs.Json.Arrangement
import Stylesheet.Proofs.Workspace.InStep

/-!
# What a module exports

A module of two lines holds the stylesheet that it is asked for and all others that can be reached
from it, and both can be read from it again.

- `Json.not_mem_render`: no value breaks a line.
- `Workspace.entries_of_explore`: an exploration lists its entry first, and behind it the other
  stylesheets that can be reached.
- `Workspace.ImportsAbsolute`: what is said of a workspace where it is defined, namely that all its
  paths are absolute. Then no path can be taken for a place in a list (`arranged_imports`).
- `Workspace.exports_of_emitModule`: the two lines of a module, and what is read from them.
-/

namespace Stylesheet

/-- No line feed stands in the text of a value. -/
theorem Json.not_mem_render (j : Json) : '\n' ∉ render j :=
  fun h => absurd (List.all_eq_true.mp (all_isPrintable_render j) '\n' h) (by decide)

/-- A table whose first key is known, without this key's entry. -/
theorem Table.exists_entries {α : Type} {t : Table Text α} {key : Text} {a : α}
    (hhead : t.keys.head? = some key) (hget : t.get? key = some a) :
    ∃ rest, t.entries = (key, a) :: rest ∧ t.entries.filter (fun entry => entry.1 != key) = rest := by
  obtain ⟨entries, hnodup⟩ := t
  cases entries with
  | nil => cases hhead
  | cons first rest =>
    obtain ⟨start, b⟩ := first
    obtain rfl : key = start := (Option.some.inj hhead).symm
    obtain rfl : b = a := Option.some.inj ((if_pos rfl).symm.trans hget)
    refine ⟨rest, rfl, ?_⟩
    rw [List.filter_cons_of_neg (by simp), List.filter_eq_self]
    intro other hother
    refine bne_iff_ne.mpr fun heq => ?_
    have hmem : other.1 ∈ rest.map Prod.fst := List.mem_map_of_mem hother
    rw [heq] at hmem
    exact (List.nodup_cons.mp hnodup).1 hmem

/-- A module has two lines. -/
theorem moduleText_eq (imports : List (Text × Sheet)) (sheet : Sheet) :
    moduleText imports sheet =
      "export const imports = " ++
        Json.render (.record (Json.arranged
          (imports.map fun (path, imported) => (path, imported.sheetJson)))) ++ ";\n" ++
      "export default " ++ Json.render sheet.sheetJson ++ ";\n" := by
  unfold moduleText
  simp only [List.append_assoc]
  rfl

namespace Workspace

variable {fs : FileSystem} {overrides : Overrides} {workspace : Workspace} {code id text : Text}
  {sheet : Sheet} {graph : Table Text Sheet}

/-- The sheets of a module beside the one that it is asked for can be read from their text, in the
order that an object gives them. -/
theorem decode?_imports {imports : List (Text × Sheet)} (h : (imports.map Prod.fst).Nodup) :
    Json.decode? (Json.render (.record (Json.arranged
        (imports.map fun (path, imported) => (path, imported.sheetJson))))) =
      some (.record ((Json.arranged imports).map
        fun entry => (entry.1, entry.2.sheetJson.rounded))) := by
  have harranged : Json.arranged (imports.map fun (path, imported) => (path, imported.sheetJson)) =
      (Json.arranged imports).map fun entry => (entry.1, entry.2.sheetJson) :=
    Json.arranged_map Document.sheetJson imports
  -- a record is read if no name is given twice, and arranging the fields gives none another time
  have hnodup : ((Json.arranged imports).map Prod.fst).Nodup :=
    ((Json.perm_arranged imports).map Prod.fst).nodup_iff.mpr h
  have hfields : Json.Unambiguous
      (.record ((Json.arranged imports).map fun entry => (entry.1, entry.2.sheetJson))) := by
    refine .record ?_ fun field hfield => ?_
    · rw [List.map_map]
      exact hnodup
    · obtain ⟨entry, -, rfl⟩ := List.mem_map.mp hfield
      exact Document.unambiguous_sheetJson entry.2
  rw [harranged, Json.decode?_render hfields, Json.rounded, Json.roundedFields_eq_map, List.map_map]
  rfl

/-- An exploration lists the stylesheet at its entry first. The others are those that can be reached
from it. -/
theorem entries_of_explore {entry : Text} (hheld : workspace.sheets.get? entry = some sheet)
    (hentry : fs.resolve entry = entry)
    (hgraph : (workspace.explore fs overrides entry).result = .ok graph) :
    ∃ imports, graph.entries = (entry, sheet) :: imports ∧
      graph.entries.filter (fun other => other.1 != entry) = imports ∧
      (imports.map Prod.fst).Nodup ∧
      Preorder (workspace.targets fs overrides) [] [entry] (entry :: imports.map Prod.fst) ∧
      ∀ path, path ∈ imports.map Prod.fst ↔
        Reaches (workspace.targets fs overrides) entry path ∧ path ≠ entry := by
  obtain ⟨final, rfl, -, hfaithful, horder⟩ := steps_of_explore hgraph
  rw [hentry] at horder
  obtain ⟨first, hget⟩ := Table.exists_get?_of_mem_keys (horder.mem_iff_reaches.mpr .refl)
  -- the entry is held from the start, so the exploration has no other sheet for it
  obtain rfl : first = sheet := by
    have hlookup := hfaithful.lookup_of_get? hget ⟨1, none⟩
    rw [lookup_of_get? hheld] at hlookup
    exact (Except.ok.inj hlookup).symm
  obtain ⟨imports, hentries, hothers⟩ := Table.exists_entries horder.head?_eq hget
  have hkeys : final.graph.keys = entry :: imports.map Prod.fst :=
    congrArg (List.map Prod.fst) hentries
  rw [hkeys] at horder
  obtain ⟨hnew, hnodup⟩ := List.nodup_cons.mp horder.nodup
  refine ⟨imports, hentries, hothers, hnodup, horder, fun path => ?_⟩
  rw [← horder.mem_iff_reaches, List.mem_cons]
  constructor
  · intro hpath
    refine ⟨.inr hpath, ?_⟩
    rintro rfl
    exact hnew hpath
  · rintro ⟨rfl | hpath, hne⟩
    · exact absurd rfl hne
    · exact hpath

/-- The stylesheets of a module are named by absolute paths, if those of the workspace are. -/
theorem InStep.isNormal_of_mem_keys (h : workspace.InStep)
    (hentry : entrySheet fs overrides code id = .ok sheet)
    (hgraph : ((workspace.holding (fs.resolve id) sheet).explore fs overrides (fs.resolve id)).result =
      .ok graph) {path : Text} (hpath : path ∈ graph.keys) : Path.IsNormal path := by
  obtain ⟨held, hget⟩ := Table.exists_get?_of_mem_keys hpath
  obtain ⟨final, rfl, hworkspace, hfaithful, -⟩ := steps_of_explore hgraph
  have hinStep : (workspace.emitModule fs overrides code id).workspace.InStep := h.emitModule code id
  rw [emitModule_of_ok hentry] at hinStep
  dsimp only at hinStep
  rw [hworkspace] at hinStep
  exact (hinStep path held (hfaithful.kept path held hget)).normal

/-! ## Absolute paths -/

/-- The stylesheets of a workspace import absolute paths. -/
def ImportsAbsolute (workspace : Workspace) : Prop :=
  ∀ path sheet, workspace.sheets.get? path = some sheet →
    ∀ imported ∈ sheet.imports, imported.path.head? = some '/'

theorem InStep.importsAbsolute (h : workspace.InStep) : workspace.ImportsAbsolute :=
  fun path sheet hheld imported himported =>
    ((h path sheet hheld).belongs.imports imported himported).head?_eq

/-- What is read imports absolute paths. -/
theorem head?_of_mem_imports (h : Document.parse fs overrides code = .ok sheet)
    {imported : Document.SheetImport} (himported : imported ∈ sheet.imports) :
    imported.path.head? = some '/' :=
  (Document.serves_of_mem_imports h imported himported).isNormal.head?_eq

/-- The workspace in which the stylesheet of a module is held. -/
theorem ImportsAbsolute.holding (h : workspace.ImportsAbsolute)
    (hentry : entrySheet fs overrides code id = .ok sheet) (path : Text) :
    (workspace.holding path sheet).ImportsAbsolute := by
  intro other held hheld imported himported
  unfold Workspace.holding at hheld
  rw [Table.get?_insert] at hheld
  split at hheld
  · cases hheld
    exact head?_of_mem_imports hentry himported
  · exact h other held hheld imported himported

/-- A stylesheet imports absolute paths whether it is held or read as its file. -/
theorem ImportsAbsolute.head?_of_mem_targets (h : workspace.ImportsAbsolute) {path target : Text}
    (htarget : target ∈ workspace.targets fs overrides path) : target.head? = some '/' := by
  cases hlookup : workspace.lookup fs overrides path ⟨1, none⟩ with
  | error e =>
    unfold targets at htarget
    rw [hlookup] at htarget
    cases htarget
  | ok sheet =>
    rw [targets_of_lookup hlookup] at htarget
    obtain ⟨imported, himported, rfl⟩ := List.mem_map.mp htarget
    rcases lookup_eq_ok.mp hlookup with hheld | ⟨-, source, -, hread⟩
    · exact h path sheet hheld imported himported
    · exact head?_of_mem_imports hread himported

/-- Where all paths are absolute, the object of the imports lists them in visiting order. -/
theorem ImportsAbsolute.arranged_imports (h : workspace.ImportsAbsolute)
    {imports : List (Text × Sheet)} {entry : Text}
    (hreaches : ∀ path ∈ imports.map Prod.fst,
      Reaches (workspace.targets fs overrides) entry path ∧ path ≠ entry) :
    Json.arranged imports = imports := by
  refine Json.arranged_eq_self fun field hfield => Json.place?_eq_none ?_
  obtain ⟨hreaches, hne⟩ := hreaches field.1 (List.mem_map_of_mem hfield)
  -- the last step of the way is an import
  rcases Relation.ReflTransGen.cases_tail hreaches with heq | ⟨importer, -, htarget⟩
  · exact absurd heq hne
  · exact h.head?_of_mem_targets htarget

end Workspace

end Stylesheet
