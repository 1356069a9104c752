import Stylesheet.Proofs.Document.Assembly
import Stylesheet.Proofs.FileSystem.Paths

/-!
# The imports of a document can be read

- `Siblings.Served`: the stylesheets that the nodes next to each other import are there.
- `served_of_line`, `served_of_forest`: this stays true when lines are assembled.
- `Document.serves_of_mem_imports`: so a document that is read imports stylesheets that are there.
- `Document.parse_congr`: reading depends only on where imports are found.
-/

namespace Stylesheet

open Parsing

variable {fs : FileSystem} {directories : List Text} {root : Bool} {line : Line}
  {state next : Unit}

/-! ## Readings -/

/-- The standard services find what the file system finds. -/
theorem Services.yields_find {name path : Text}
    (h : Yields ((Services.standard fs).find directories line name) state path next) :
    fs.find name directories = .ok path := by
  have h : (match fs.find name directories with
      | .ok path => ((Except.ok path : Except SyntaxError Text), state)
      | .error message => (.error (line.fault (.reported message)), state)) = (.ok path, next) := by
    unfold Yields at h
    rw [← h]
    show _ = Services.call line (pure (fs.find name directories)) state
    cases fs.find name directories <;> rfl
  cases hfind : fs.find name directories with
  | error message =>
    rw [hfind] at h
    cases h
  | ok found =>
    rw [hfind] at h
    cases h
    rfl

namespace Reading

/-- What becomes an import of a stylesheet was found as one. -/
theorem serves_of_resolveEntry {entry : ImportEntry} {c : Construct Expression} {path : Text}
    (h : Yields (resolveEntry (.standard fs) directories line entry) state c next)
    (hc : c = .fileImport path) : fs.Serves path := by
  cases hc
  match entry, h with
  | .css _, h =>
    obtain ⟨heq, -⟩ := yields_pure.mp h
    cases heq
  | .sheet _, h =>
    obtain ⟨found, _, hfound, h⟩ := yields_bind.mp h
    split at h
    · obtain ⟨heq, -⟩ := yields_pure.mp h
      cases heq
    · rename_i hcss
      obtain ⟨heq, -⟩ := yields_pure.mp h
      cases heq
      exact FileSystem.serves_of_find (Services.yields_find hfound) (Bool.eq_false_iff.mpr hcss)

theorem serves_of_resolve {reading : Reading} {nodes : List (Node Expression)}
    (h : Yields (reading.resolve (.standard fs) directories line) state (.nodes nodes) next) :
    ∀ node ∈ nodes, ∀ path, node.construct = .fileImport path → fs.Serves path := by
  match reading, h with
  | .construct _, h | .definition _ _, h | .branch (some _), h =>
    obtain ⟨_, _, -, h⟩ := yields_bind.mp h
    obtain ⟨heq, -⟩ := yields_pure.mp h
    cases heq
  | .branch none, h =>
    obtain ⟨heq, -⟩ := yields_pure.mp h
    cases heq
  | .imports entries, h =>
    obtain ⟨constructs, _, hconstructs, h⟩ := yields_bind.mp h
    obtain ⟨heq, -⟩ := yields_pure.mp h
    cases heq
    obtain ⟨-, hall⟩ := forall_of_yields_mapM
      (P := fun c => ∀ path, c = .fileImport path → fs.Serves path) hconstructs
      fun _ _ _ _ hentry _ hc => serves_of_resolveEntry hentry hc
    intro node hnode
    obtain ⟨c, hc, rfl⟩ := List.mem_map.mp hnode
    exact hall c hc

end Reading

/-! ## Assembling lines -/

/-- The stylesheets that the nodes next to each other import are there. -/
def Siblings.Served (fs : FileSystem) (siblings : Siblings Expression) : Prop :=
  ∀ node ∈ siblings.placed, ∀ path, node.construct = .fileImport path → fs.Serves path

namespace Assembly

variable {siblings added : Siblings Expression}

theorem ne_fileImport_of_echoes {c : Construct Expression} {path : Text} (h : c.Echoes line) :
    c ≠ .fileImport path := by
  rintro rfl
  exact h

/-- A node that is no import changes nothing. -/
theorem served_of_add {node : Node Expression} (hserved : siblings.Served fs)
    (hnode : ∀ path, node.construct ≠ .fileImport path)
    (hadd : siblings.add root line (.node node) = .ok added) : added.Served fs := by
  cases hrule : node.construct.isRule with
  | true =>
    match hconstruct : node.construct, hrule with
    | .rule _, _ =>
      rcases Siblings.add_rule hconstruct hadd with ⟨-, rfl⟩ | ⟨-, -, rfl⟩
      · intro other hother path hpath
        rcases List.mem_cons.mp hother with rfl | hother
        · cases hpath
        · exact hserved other hother path hpath
      · exact hserved
  | false =>
    obtain ⟨-, rfl⟩ := Siblings.add_node hrule hadd
    intro other hother path hpath
    rcases List.mem_cons.mp hother with rfl | hother
    · exact absurd hpath (hnode path)
    · exact hserved other hother path hpath

theorem served_of_line
    (h : Yields (Assembly.line (.standard fs) directories root siblings line) state added next)
    (hserved : siblings.Served fs) : added.Served fs := by
  obtain ⟨reading, outcome, completed, middle, hread, hresolve, hcompletes, hadd⟩ := line_steps h
  have hechoes := Reading.echoes_of_resolve (Reading.echoes_of_ofLine hread) hresolve
  -- only the line of an import puts imports into a document
  cases hcompletes with
  | comment =>
    obtain ⟨c, rfl, hc⟩ := hechoes
    exact served_of_add hserved (fun path => ne_fileImport_of_echoes hc) hadd
  | node =>
    obtain ⟨c, rfl, hc⟩ := hechoes
    exact served_of_add hserved (fun path => ne_fileImport_of_echoes hc) hadd
  | nodes =>
    obtain ⟨-, rfl⟩ := Siblings.add_nodes hadd
    intro node hnode
    rcases List.mem_append.mp hnode with hnode | hnode
    · exact Reading.serves_of_resolve hresolve node (List.mem_reverse.mp hnode)
    · exact hserved node hnode
  | branch =>
    obtain ⟨hcond, test, rfl⟩ := hechoes
    obtain ⟨newest, placed, hplaced, -, -, rfl⟩ := Siblings.add_branch hcond hadd
    unfold Siblings.Served at hserved
    rw [hplaced] at hserved
    intro node hnode path hpath
    rcases List.mem_cons.mp hnode with rfl | hnode
    · exact hserved newest List.mem_cons_self path hpath
    · exact hserved node (List.mem_cons_of_mem _ hnode) path hpath

/-- Assembling lines keeps all imports served. -/
theorem served_of_forest {trees : List Line}
    (h : Yields (forest (.standard fs) directories root siblings trees) state added next)
    (hserved : siblings.Served fs) : added.Served fs := by
  induction trees generalizing siblings state with
  | nil =>
    rw [forest_nil h]
    exact hserved
  | cons first rest ih =>
    obtain ⟨between, middle, hfirst, hrest⟩ := forest_cons h
    exact ih hrest (served_of_line hfirst hserved)

end Assembly

/-! ## Documents -/

namespace Document

variable {overrides : Overrides} {source : Text} {document : Document Expression}

/-- A document that is read imports stylesheets that are there. -/
theorem serves_of_mem_imports (h : parse fs overrides source = .ok document) :
    ∀ imported ∈ document.imports, fs.Serves imported.path := by
  obtain ⟨lines, trees, after, siblings, -, -, hforest, hfinish, -⟩ :=
    steps_of_parseWith (parse_eq_ok.mp h)
  obtain ⟨-, hchildren⟩ := Siblings.finish_eq_ok.mp hfinish
  have hserved : siblings.Served fs := Assembly.served_of_forest hforest
    fun node hnode => absurd hnode List.not_mem_nil
  intro imported himported
  obtain ⟨node, hnode, himport⟩ := List.mem_filterMap.mp himported
  rw [← hchildren] at hnode
  split at himport
  · rename_i path hconstruct
    cases himport
    exact hserved node (List.mem_reverse.mp hnode) path hconstruct
  · cases himport

/-- Reading depends only on where imports are found. -/
theorem parse_congr {fs' : FileSystem} (hworking : fs.working = fs'.working)
    (hreadable : ∀ path, fs.isReadable path = fs'.isReadable path) (overrides : Overrides)
    (source : Text) : parse fs overrides source = parse fs' overrides source := by
  have hservices : Services.standard (σ := Unit) fs = .standard fs' := by
    unfold Services.standard
    simp only [FileSystem.find_congr hworking hreadable]
  unfold parse
  rw [hservices]

end Document

end Stylesheet
