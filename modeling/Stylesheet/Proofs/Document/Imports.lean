import Stylesheet.Proofs.Document.Answers
import Stylesheet.Proofs.Document.Places

/-!
# A document imports what is found for its entries

- `Node.Holds.ne_root`: below the root nothing stands at the root.
- `Document.imports_of_kept`: as imports stand at the root, they are all the stylesheets that are
  kept.
- `Ask.found?`, `Runs.found`: what is kept of a run of calls is what is found for what is asked.
- `Document.imports_of_parse`: so a document that is read imports what is found for its entries, in
  their order.
-/

namespace Stylesheet

open Parsing

variable {σ E α : Type}

/-! ## Walks and places -/

namespace Node

/-- What is held below the root does not stand there. -/
theorem Holds.ne_root {place inner : Place} {node other : Node E} (h : Holds place node inner other)
    (hplace : place ≠ .root) : inner ≠ .root := by
  induction h with
  | self => exact hplace
  | beneath _ _ ih => exact ih nofun
  | branch _ _ ih => exact ih nofun

/-- Beneath a node whose parts are in their places no import stands. -/
theorem not_import_of_mem_forestWalk {lines : List WrittenLine} {top other : Node E}
    (htop : top.AllInPlace lines .root)
    (h : other ∈ forestWalk top.children ∨ other ∈ forestWalk top.branches) (path : Text) :
    other.construct ≠ .fileImport path := by
  have hheld : ∃ inner full, Holds .root top inner full ∧ full.bare = other ∧ inner ≠ .root := by
    rcases h with h | h
    · obtain ⟨child, hchild, inner, full, hholds, hbare⟩ := holds_of_mem_forestWalk .beneath h
      exact ⟨inner, full, .beneath hchild hholds, hbare, hholds.ne_root nofun⟩
    · obtain ⟨branch, hbranch, inner, full, hholds, hbare⟩ := holds_of_mem_forestWalk .branch h
      exact ⟨inner, full, .branch hbranch hholds, hbare, hholds.ne_root nofun⟩
  obtain ⟨inner, full, hholds, rfl, hinner⟩ := hheld
  intro hconstruct
  have hconstruct : full.construct = .fileImport path := hconstruct
  refine hinner ((htop inner full hholds).rootOnly ?_)
  rw [hconstruct]
  rfl

end Node

/-! ## Imports that are kept -/

/-- The import that was kept. -/
def Kept.path? : Kept E → Option Text
  | .sheet path => some path
  | .expression _ _ => none

namespace Node

theorem filterMap_path?_kept {node : Node E} (h : ∀ path, node.construct ≠ .fileImport path) :
    node.kept.filterMap Kept.path? = [] := by
  obtain ⟨construct, site, children, branches⟩ := node
  cases construct with
  | fileImport path => exact absurd rfl (h path)
  | _ =>
    show (Kept.ofParts site _).filterMap Kept.path? = []
    unfold Kept.ofParts
    rw [List.filterMap_map, List.filterMap_eq_nil_iff]
    exact fun _ _ => rfl

/-- Of nodes beneath which no import stands, just the imports among themselves are kept. -/
theorem filterMap_path?_forestKept {nodes : List (Node E)}
    (h : ∀ top ∈ nodes, ∀ other, other ∈ forestWalk top.children ∨ other ∈ forestWalk top.branches →
      ∀ path, other.construct ≠ .fileImport path) :
    (forestKept nodes).filterMap Kept.path? =
      nodes.flatMap fun node => node.kept.filterMap Kept.path? := by
  have hnone : ∀ inner : List (Node E), (∀ other ∈ forestWalk inner, ∀ path,
      other.construct ≠ .fileImport path) → (forestKept inner).filterMap Kept.path? = [] := by
    intro inner hinner
    unfold forestKept
    rw [List.filterMap_flatMap, List.flatMap_eq_nil_iff]
    exact fun other hother => filterMap_path?_kept (hinner other hother)
  induction nodes with
  | nil => rfl
  | cons node nodes ih =>
    obtain ⟨hnode, hnodes⟩ := List.forall_mem_cons.mp h
    rw [List.flatMap_cons, ← ih hnodes, ← List.singleton_append, forestKept_append,
      forestKept_singleton, List.filterMap_append, List.filterMap_append, List.filterMap_append,
      hnone _ fun other hother => hnode other (.inl hother),
      hnone _ fun other hother => hnode other (.inr hother), List.append_nil, List.append_nil]

end Node

namespace Document

theorem map_path_imports (document : Document E) :
    document.imports.map SheetImport.path =
      document.children.flatMap fun node => node.kept.filterMap Kept.path? := by
  unfold imports
  induction document.children with
  | nil => rfl
  | cons node nodes ih =>
    rw [List.flatMap_cons, ← ih]
    by_cases himport : ∃ path, node.construct = .fileImport path
    · obtain ⟨path, hconstruct⟩ := himport
      rw [List.filterMap_cons_some (b := ⟨path, node.site⟩) (by rw [hconstruct])]
      unfold Node.kept
      rw [hconstruct]
      rfl
    · have hnone : ∀ path, node.construct ≠ .fileImport path := not_exists.mp himport
      rw [Node.filterMap_path?_kept hnone, List.filterMap_cons_none]
      · rfl
      · split
        · rename_i path hconstruct
          exact absurd hconstruct (hnone path)
        · rfl

/-- The imports of a document are all the stylesheets that it keeps. -/
theorem imports_of_kept {services : Services σ E} {overrides : Overrides} {source : Text}
    {document : Document E} {state next : σ}
    (h : Yields (parseWith services overrides source) state document next) :
    document.imports.map SheetImport.path =
      (Node.forestKept document.children).filterMap Kept.path? := by
  rw [map_path_imports, Node.filterMap_path?_forestKept]
  exact fun top htop other => Node.not_import_of_mem_forestWalk (allInPlace_of_parseWith h top htop)

end Document

/-! ## What is found -/

/-- The stylesheet that is found where one is asked for. A plain style sheet is none. -/
def Ask.found? (fs : FileSystem) (directories : List Text) : Ask → Option Text
  | .expression _ _ => none
  | .sheet name =>
    match fs.find name directories with
    | .error _ => none
    | .ok path => if cssExtension.isSuffixOf path then none else some path

theorem Ask.found?_sheet {fs : FileSystem} {directories : List Text} {name path : Text}
    (h : fs.find name directories = .ok path) (hcss : cssExtension.isSuffixOf path = false) :
    (Ask.sheet name).found? fs directories = some path := by
  simp only [found?, h, hcss]
  rfl

/-- What is kept of a call is what is found for what is asked. -/
theorem Line.Puts.found {fs : FileSystem} {directories : List Text} {line : Line} {ask : Ask}
    {state next : Unit} {call : Services.Call Expression}
    (h : line.Puts (.standard fs) directories ask state call next) :
    call.kept?.bind Kept.path? = ask.found? fs directories := by
  cases h with
  | @expression _ _ _ _ answer => cases answer <;> rfl
  | @sheet name _ _ answer hanswer =>
    have hanswer : (fs.find name directories, ()) = (answer, ()) := hanswer
    dsimp only [Ask.found?]
    rw [(Prod.mk.inj hanswer).1]
    cases answer with
    | error message => rfl
    | ok path =>
      dsimp only [Services.Call.kept?]
      cases cssExtension.isSuffixOf path <;> rfl

/-- What is kept of a run of calls is what is found for all that is asked. -/
theorem Runs.found {fs : FileSystem} {directories : List Text} {lines : List WrittenLine}
    {asks : List (Line × Ask)} {calls : List (Services.Call Expression)} {state next : Unit} {a : α}
    (h : Runs (.standard fs) directories lines asks state calls (.ok a : Except SyntaxError α) next) :
    calls.filterMap (fun call => call.kept?.bind Kept.path?) =
      asks.filterMap fun asked => asked.2.found? fs directories := by
  generalize hok : (Except.ok a : Except SyntaxError α) = result at h
  induction h with
  | done => rfl
  | fault => cases hok
  | refused => cases hok
  | served hputs _ _ ih => rw [List.filterMap_cons, List.filterMap_cons, ih hok, hputs.found]

namespace Document

/-- A document that is read imports just what is found for its entries, in their order. -/
theorem imports_of_parse {fs : FileSystem} {overrides : Overrides} {source : Text}
    {sheet : Document Expression} (h : parse fs overrides source = .ok sheet) :
    sheet.imports.map SheetImport.path =
      (askings overrides source).filterMap fun asked =>
        asked.2.found? fs overrides.resolve.searchPath := by
  have hyields := parse_eq_ok.mp h
  obtain ⟨calls, hnoted⟩ := recorded_of_parseWith hyields
  rw [imports_of_kept hyields, ← kept_of_parseWith hnoted, List.filterMap_filterMap]
  exact (runs_of_recorded hnoted).found

/-- What is found for an entry is imported, unless it is a plain style sheet. -/
theorem mem_imports_of_find {fs : FileSystem} {overrides : Overrides} {source name path : Text}
    {sheet : Document Expression} {line : Line} (h : parse fs overrides source = .ok sheet)
    (hasked : (line, .sheet name) ∈ askings overrides source)
    (hfind : fs.find name overrides.resolve.searchPath = .ok path)
    (hcss : cssExtension.isSuffixOf path = false) : path ∈ sheet.imports.map SheetImport.path := by
  rw [imports_of_parse h]
  exact List.mem_filterMap.mpr ⟨_, hasked, Ask.found?_sheet hfind hcss⟩

end Document

end Stylesheet
