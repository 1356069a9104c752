import Stylesheet.Proofs.Document.Accounts
import Stylesheet.Proofs.Workspace.Modules

/-!
# Stylesheets and noted imports stay in step

A workspace keeps stylesheets in one table and what they import in another. The operations on a
workspace write to the two at different moments, and each of them can fail in between.

- `Path.IsNormal`: an absolute path without empty segments and dots.
- `Sheet.BelongsAt`: a stylesheet that was read as the file at a path, as `belongsAt_of_parse`
  shows.
- `Workspace.Filed`, `Workspace.InStep`: a stylesheet belongs at its path, and its imports are
  noted.
- `inStep_visited`: a visit puts the stylesheet that it looks up in step, whatever was noted before;
  `inStep_of_visits` says the same of the whole recursion, whether it fails or not.
- `Workspace.Operation`, `InStep.after`: every operation preserves the invariant.
- `Workspace.filed_of_operations`: so it holds after any sequence of operations.
-/

namespace Stylesheet

/-! ## Absolute paths -/

namespace Path

/-- A path from the root of which every segment is proper. The root itself has no segments. -/
def IsNormal (path : Text) : Prop :=
  ∃ segments : List Text, (∀ segment ∈ segments, Proper segment) ∧
    path = '/' :: Text.join ['/'] segments

/-- Whatever paths are followed, an absolute path without improper segments is reached. -/
theorem isNormal_resolve (working : Text) (paths : List Text) : IsNormal (resolve working paths) := by
  refine ⟨_, fun segment hmem => ?_, rfl⟩
  refine proper_of_mem_foldl (fun piece hpiece => Text.not_mem_of_mem_pieces hpiece)
    (fun piece hpiece => absurd hpiece List.not_mem_nil) segment (List.mem_reverse.mp hmem)

theorem IsNormal.head?_eq {path : Text} (h : IsNormal path) : path.head? = some '/' := by
  obtain ⟨segments, -, rfl⟩ := h
  rfl

end Path

/-- What is imported is an absolute path, so it can be the key of a stylesheet. -/
theorem FileSystem.Serves.isNormal {fs : FileSystem} {path : Text} (h : fs.Serves path) :
    Path.IsNormal path := by
  rw [← h.absolute]
  exact Path.isNormal_resolve _ _

/-! ## The order of first occurrences -/

section

variable {α : Type} [BEq α] [LawfulBEq α]

theorem idxOf_filter_lt_iff {p : α → Bool} {a b : α} (ha : p a = true) (hb : p b = true)
    (l : List α) :
    (l.filter p).idxOf a < (l.filter p).idxOf b ↔ l.idxOf a < l.idxOf b := by
  induction l with
  | nil => simp
  | cons c l ih =>
    by_cases hc : p c = true
    · rw [List.filter_cons_of_pos hc, List.idxOf_cons, List.idxOf_cons, List.idxOf_cons,
        List.idxOf_cons]
      cases c == a <;> cases c == b <;> simp [ih]
    · have hne : ∀ d, p d = true → (c == d) = false := by
        intro d hd
        refine beq_eq_false_iff_ne.mpr ?_
        rintro rfl
        exact hc hd
      -- a member that is left out is neither of the two, so both indices shrink by one
      rw [List.filter_cons_of_neg hc, List.idxOf_cons, List.idxOf_cons, hne a ha, hne b hb, ih]
      simp

/-- Without its repetitions, a list has its members in the order in which they first occur. -/
theorem pairwise_idxOf_eraseDups (l : List α) :
    l.eraseDups.Pairwise fun a b => l.idxOf a < l.idxOf b := by
  match l with
  | [] => exact .nil
  | c :: l =>
    have ih := pairwise_idxOf_eraseDups (l.filter fun d => !d == c)
    rw [List.eraseDups_cons, List.pairwise_cons]
    have hother : ∀ d ∈ (l.filter fun d => !d == c).eraseDups, (c == d) = false := by
      intro d hd
      have hd := (List.mem_filter.mp (List.mem_eraseDups.mp hd)).2
      refine beq_eq_false_iff_ne.mpr ?_
      rintro rfl
      simp at hd
    constructor
    · intro d hd
      simp [List.idxOf_cons, hother d hd]
    · refine ih.imp_of_mem fun {a b} ha hb hlt => ?_
      -- the order of the rest was shown without the repetitions of `c`; it is the same with them
      have hkept : ∀ d, (c == d) = false → (!d == c) = true := by
        intro d hd
        rw [Bool.not_eq_true', beq_eq_false_iff_ne]
        exact fun heq => absurd heq.symm (beq_eq_false_iff_ne.mp hd)
      have hlt := (idxOf_filter_lt_iff (p := fun d => !d == c) (hkept a (hother a ha))
        (hkept b (hother b hb)) l).mp hlt
      simp [List.idxOf_cons, hother a ha, hother b hb, hlt]
termination_by l.length
decreasing_by
  exact Nat.lt_succ_of_le (List.length_filter_le _ _)

end

/-! ## Stylesheets at a path -/

/-- The stylesheet was read as the file at a path: it is named so, and so is the file of every node.
What it imports is found at absolute paths. -/
structure Sheet.BelongsAt (path : Text) (sheet : Sheet) : Prop where
  filename : sheet.options.filename = some path
  nodes : ∀ node ∈ Node.forestWalk sheet.children, node.site.filename = some path
  imports : ∀ imported ∈ sheet.imports, Path.IsNormal imported.path

/-- A document that is read under the name of a file belongs at its path. -/
theorem belongsAt_of_parse {fs : FileSystem} {overrides : Overrides} {source path : Text}
    {sheet : Sheet} (hname : overrides.filename = some path)
    (h : Document.parse fs overrides source = .ok sheet) : sheet.BelongsAt path where
  filename := by
    obtain ⟨_, _, _, _, -, -, -, -, hoptions⟩ := Document.steps_of_parseWith
      (Document.parse_eq_ok.mp h)
    rw [hoptions]
    exact hname
  nodes node hnode := by
    -- every node stems from a line, and every line carries the file of the document
    obtain ⟨line, hline, hsite⟩ := Document.exists_line_of_parseWith (Document.parse_eq_ok.mp h) hnode
    rw [hsite, WrittenLine.filename_of_mem_ofSource hline, hname]
  imports imported himported := (Document.serves_of_mem_imports h imported himported).isNormal

namespace Workspace

variable {fs : FileSystem} {overrides : Overrides} {workspace : Workspace} {path : Text}
  {sheet : Sheet}

/-! ## The invariant -/

/-- A stylesheet of a workspace is filed under the path where it belongs, and what it imports is
noted there, each path once, in the order of the first imports. -/
structure Filed (workspace : Workspace) (path : Text) (sheet : Sheet) : Prop where
  normal : Path.IsNormal path
  belongs : sheet.BelongsAt path
  noted : workspace.imports.get? path =
    some (sheet.imports.map Document.SheetImport.path).eraseDups

/-- All stylesheets of a workspace are filed, but for the one at a path. -/
def InStepBut (workspace : Workspace) (exempt : Text) : Prop :=
  ∀ path sheet, workspace.sheets.get? path = some sheet → path ≠ exempt →
    workspace.Filed path sheet

/-- All stylesheets of a workspace are filed. -/
def InStep (workspace : Workspace) : Prop :=
  ∀ path sheet, workspace.sheets.get? path = some sheet → workspace.Filed path sheet

theorem inStep_empty : InStep empty := by
  intro path sheet h
  cases h

theorem InStep.but (h : workspace.InStep) (exempt : Text) : workspace.InStepBut exempt :=
  fun path sheet hget _ => h path sheet hget

/-- What a workspace that is in step answers for a path belongs there. -/
theorem InStep.belongsAt (h : workspace.InStep) {site : Site}
    (hlookup : workspace.lookup fs overrides path site = .ok sheet) : sheet.BelongsAt path := by
  rcases lookup_eq_ok.mp hlookup with hheld | ⟨-, source, -, hread⟩
  · exact (h path sheet hheld).belongs
  · exact belongsAt_of_parse rfl hread

end Workspace

/-! ## Visits -/

namespace Traversal

variable {fs : FileSystem} {overrides : Overrides} {visit : Visit} {agenda : List Visit}
  {t final : Traversal} {sheet : Sheet} {result : Except SyntaxError Unit}

/-- A visit files the stylesheet that it looks up, even if nothing or something else was noted at
its path. -/
theorem inStep_visited (h : t.workspace.InStepBut visit.path) (hpath : Path.IsNormal visit.path)
    (hsheet : sheet.BelongsAt visit.path) (hanswer : t.answer fs overrides visit = .ok sheet) :
    (t.visited visit.path sheet).workspace.InStep := by
  intro path held hget
  rw [get?_sheets_visited hanswer] at hget
  by_cases heq : visit.path = path
  · rw [if_pos heq] at hget
    cases hget
    rw [← heq]
    refine ⟨hpath, hsheet, ?_⟩
    rw [get?_imports_visited, if_pos rfl]
  · rw [if_neg heq] at hget
    have hfiled := h path held hget fun hsame => heq hsame.symm
    refine ⟨hfiled.normal, hfiled.belongs, ?_⟩
    rw [get?_imports_visited, if_neg heq]
    exact hfiled.noted

theorem isNormal_of_mem_onward (hsheet : sheet.BelongsAt visit.path) :
    ∀ next ∈ onward visit sheet, Path.IsNormal next.path := by
  intro next hnext
  obtain ⟨imported, himported, rfl⟩ := List.mem_map.mp hnext
  exact hsheet.imports imported himported

/-- The recursion preserves the invariant, even if it fails. -/
theorem inStep_of_visits (h : Visits fs overrides agenda t result final)
    (hagenda : ∀ visit ∈ agenda, Path.IsNormal visit.path) (hstart : t.workspace.InStep) :
    final.workspace.InStep := by
  induction h with
  | done | failed => exact hstart
  | circle _ _ ih => exact ih (List.forall_mem_cons.mp hagenda).2 hstart
  | known _ _ _ ih => exact ih (List.forall_mem_cons.mp hagenda).2 hstart
  | @entered visit _ _ _ _ _ _ _ _ hanswer _ _ ihInner ihRest =>
    obtain ⟨hpath, hagenda⟩ := List.forall_mem_cons.mp hagenda
    have hsheet := hstart.belongsAt hanswer
    have hvisited := inStep_visited (hstart.but visit.path) hpath hsheet hanswer
    exact ihRest hagenda (ihInner (isNormal_of_mem_onward hsheet) hvisited)
  | @stopped visit _ _ _ _ _ _ _ hanswer _ ihInner =>
    obtain ⟨hpath, -⟩ := List.forall_mem_cons.mp hagenda
    have hsheet := hstart.belongsAt hanswer
    have hvisited := inStep_visited (hstart.but visit.path) hpath hsheet hanswer
    exact ihInner (isNormal_of_mem_onward hsheet) hvisited

/-- From a stylesheet that is held, but perhaps not filed yet, the recursion leaves all filed: its
first step files this one, and no step in front of that can fail. -/
theorem inStep_of_visits_held (h : Visits fs overrides [visit] t result final)
    (hchain : visit.chain = []) (hgraph : t.graph.contains visit.path = false)
    (hheld : t.workspace.sheets.get? visit.path = some sheet) (hpath : Path.IsNormal visit.path)
    (hsheet : sheet.BelongsAt visit.path) (hstart : t.workspace.InStepBut visit.path) :
    final.workspace.InStep := by
  have hanswer : t.answer fs overrides visit = .ok sheet := Workspace.lookup_of_get? hheld _
  have hvisited := inStep_visited hstart hpath hsheet hanswer
  -- the stylesheet is held, new and stands on no chain: only the two ways to enter it are left
  cases h with
  | circle hcircle =>
    rw [hchain] at hcircle
    exact absurd hcircle List.not_mem_nil
  | known _ hknown =>
    rw [hgraph] at hknown
    cases hknown
  | failed _ _ hfailed =>
    rw [hanswer] at hfailed
    cases hfailed
  | entered _ _ hanswer' hinner hrest =>
    rw [hanswer] at hanswer'
    cases hanswer'
    have hmiddle := inStep_of_visits hinner (isNormal_of_mem_onward hsheet) hvisited
    exact inStep_of_visits hrest (fun next hnext => absurd hnext List.not_mem_nil) hmiddle
  | stopped _ _ hanswer' hinner =>
    rw [hanswer] at hanswer'
    cases hanswer'
    exact inStep_of_visits hinner (isNormal_of_mem_onward hsheet) hvisited

end Traversal

/-! ## Operations -/

namespace Workspace

variable {fs : FileSystem} {overrides : Overrides} {workspace : Workspace} {path : Text}
  {sheet : Sheet}

/-- Exploring preserves the invariant, even if it fails. -/
theorem InStep.explore (h : workspace.InStep) (entry : Text) :
    (workspace.explore fs overrides entry).workspace.InStep := by
  obtain ⟨result, final, hvisits, hexplore⟩ := explore_visits fs overrides workspace entry
  rw [hexplore]
  exact Traversal.inStep_of_visits hvisits
    (List.forall_mem_singleton.mpr (Path.isNormal_resolve _ _)) h

/-- Making a module preserves the invariant. The stylesheet that it is asked for is held before its
imports are noted, and the exploration notes them before it can fail. -/
theorem InStep.emitModule (h : workspace.InStep) (code id : Text) :
    (workspace.emitModule fs overrides code id).workspace.InStep := by
  cases hentry : entrySheet fs overrides code id with
  | error e =>
    rw [emitModule_of_error hentry]
    exact h
  | ok sheet =>
    rw [emitModule_of_ok hentry]
    obtain ⟨result, final, hvisits, hexplore⟩ := explore_visits fs overrides
      (workspace.holding (fs.resolve id) sheet) (fs.resolve id)
    rw [hexplore]
    rw [FileSystem.resolve_resolve] at hvisits
    -- the stylesheet just put in is the one exception to the invariant, and the first visit is to
    -- it
    refine Traversal.inStep_of_visits_held hvisits rfl rfl (get?_holding _)
      (Path.isNormal_resolve _ _) (belongsAt_of_parse rfl hentry) ?_
    intro other held hget hother
    have hget : (workspace.sheets.insert (fs.resolve id) sheet).get? other = some held := hget
    rw [Table.get?_insert, if_neg fun heq => hother heq.symm] at hget
    have hfiled := h other held hget
    exact ⟨hfiled.normal, hfiled.belongs, hfiled.noted⟩

/-- Forgetting leaves fewer stylesheets, and what they import stays noted. -/
theorem InStep.forget (h : workspace.InStep) (path? : Option Text) :
    (workspace.forget fs path?).InStep := by
  intro other held hget
  have hfiled : workspace.Filed other held := by
    refine h other held ?_
    match path? with
    | none | some [] => cases hget
    | some (c :: path) =>
      rw [get?_sheets_forget (List.cons_ne_nil c path)] at hget
      split at hget
      · cases hget
      · exact hget
  refine ⟨hfiled.normal, hfiled.belongs, ?_⟩
  rw [imports_forget]
  exact hfiled.noted

/-- An operation on a workspace, with the files as they are at that moment. -/
inductive Operation where
  | explore (fs : FileSystem) (overrides : Overrides) (entry : Text)
  | emitModule (fs : FileSystem) (overrides : Overrides) (code id : Text)
  | forget (fs : FileSystem) (path? : Option Text)

/-- The workspace that an operation leaves behind, whether it succeeds or not. -/
def after (workspace : Workspace) : Operation → Workspace
  | .explore fs overrides entry => (workspace.explore fs overrides entry).workspace
  | .emitModule fs overrides code id => (workspace.emitModule fs overrides code id).workspace
  | .forget fs path? => workspace.forget fs path?

/-- Every operation preserves the invariant. -/
theorem InStep.after (h : workspace.InStep) (operation : Operation) :
    (workspace.after operation).InStep := by
  cases operation with
  | explore fs overrides entry => exact h.explore entry
  | emitModule fs overrides code id => exact h.emitModule code id
  | forget fs path? => exact h.forget path?

/-- Any run of operations preserves the invariant, whether they succeed or not. -/
theorem InStep.afterAll (h : workspace.InStep) (operations : List Operation) :
    (operations.foldl Workspace.after workspace).InStep := by
  induction operations generalizing workspace with
  | nil => exact h
  | cons operation operations ih => exact ih (h.after operation)

theorem mem_map_path_imports {other : Text} :
    other ∈ sheet.imports.map Document.SheetImport.path ↔
      ∃ node ∈ sheet.children, node.construct = .fileImport other := by
  constructor
  · intro h
    obtain ⟨imported, himported, rfl⟩ := List.mem_map.mp h
    obtain ⟨node, hnode, himport⟩ := List.mem_filterMap.mp himported
    split at himport
    · rename_i path hconstruct
      cases himport
      exact ⟨node, hnode, hconstruct⟩
    · cases himport
  · rintro ⟨node, hnode, hconstruct⟩
    refine List.mem_map.mpr ⟨⟨other, node.site⟩, List.mem_filterMap.mpr ⟨node, hnode, ?_⟩, rfl⟩
    rw [hconstruct]

/-- After any operations on a workspace that was empty, whether they succeeded or not, and whatever
happened to the files in between, every stylesheet stands under an absolute path. It is named so,
and so is the file of each of its nodes. At the same path are noted the paths that it imports, each
once, in the order of the first imports. -/
theorem filed_of_operations (operations : List Operation)
    (h : (operations.foldl after empty).sheets.get? path = some sheet) :
    Path.IsNormal path ∧ sheet.options.filename = some path ∧
      (∀ node ∈ Node.forestWalk sheet.children, node.site.filename = some path) ∧
      ∃ noted, (operations.foldl after empty).imports.get? path = some noted ∧
        (∀ other, other ∈ noted ↔ ∃ node ∈ sheet.children, node.construct = .fileImport other) ∧
        noted.Pairwise fun first second =>
          (sheet.imports.map Document.SheetImport.path).idxOf first <
            (sheet.imports.map Document.SheetImport.path).idxOf second := by
  have hfiled := inStep_empty.afterAll operations path sheet h
  refine ⟨hfiled.normal, hfiled.belongs.filename, hfiled.belongs.nodes, _, hfiled.noted, ?_, ?_⟩
  · intro other
    rw [List.mem_eraseDups]
    exact mem_map_path_imports
  · exact pairwise_idxOf_eraseDups _

/-- A stylesheet that imports two others, the first of them twice. The second one cannot be read. -/
def brokenFiles : FileSystem where
  working := ['/']
  entries := .insert (.insert (.insert .empty "/a.terrace" (.file "@import b, c, b"))
    "/b.terrace" (.file "d\n  e: f")) "/c.terrace" (.file "@else")

/-- An exploration that fails at the last stylesheet, the module of another text for the first one,
which fails there as well, and the loss of the second one. -/
def failingOperations : List Operation :=
  [.explore brokenFiles {} "a.terrace", .emitModule brokenFiles {} "@import c, b, c" "/a.terrace",
    .forget brokenFiles (some "b.terrace")]

/-- The first stylesheet is held with the imports of the other text. -/
theorem filed_of_failing_operations :
    ∃ sheet, (failingOperations.foldl after empty).sheets.get? "/a.terrace" = some sheet ∧
      sheet.options.filename = some "/a.terrace" ∧
      ∃ noted, (failingOperations.foldl after empty).imports.get? "/a.terrace" = some noted ∧
        noted = (["/c.terrace", "/b.terrace"] : List Text) ∧
        ∃ node ∈ sheet.children, node.construct = .fileImport "/b.terrace" := by
  have hheld : ((failingOperations.foldl after empty).sheets.get? "/a.terrace").isSome = true := by
    decide +kernel
  have hnoted : (failingOperations.foldl after empty).imports.get? "/a.terrace" =
      some (["/c.terrace", "/b.terrace"] : List Text) := by
    decide +kernel
  obtain ⟨sheet, hsheet⟩ := Option.isSome_iff_exists.mp hheld
  obtain ⟨-, hname, -, noted, hget, hmem, -⟩ := filed_of_operations failingOperations hsheet
  have heq : noted = (["/c.terrace", "/b.terrace"] : List Text) :=
    Option.some.inj (hget.symm.trans hnoted)
  refine ⟨sheet, hsheet, hname, noted, hget, heq, (hmem _).mp ?_⟩
  rw [heq]
  exact List.mem_cons_of_mem _ List.mem_cons_self

end Workspace

end Stylesheet
