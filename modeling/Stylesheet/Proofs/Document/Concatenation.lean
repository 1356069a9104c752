import Stylesheet.Proofs.Document.Alternatives
import Stylesheet.Proofs.Document.Assembly
import Stylesheet.Proofs.Document.StartingLine
import Stylesheet.Proofs.Line.Concatenation

/-!
# Two documents behind each other

- `Siblings.onto`: nodes that stand behind others at the root. Nothing that is put behind them
  reaches back to those others (`Assembly.forest_onto`).
- `Document.parseWith_append`: the nodes of two sources behind each other are those of the two
  sources, if the lower one starts at the exact sum of the starting line and the lines above it.
- `Document.parse_append`: at the rounded sum, the nodes are the same but for the numbers of their
  lines, which are rounded once for the two sources and twice for the lower one alone.
-/

namespace Stylesheet

open Parsing

variable {σ E : Type} {services : Services σ E} {directories : List Text} {root : Bool}
  {siblings added : Siblings E} {state next : σ}

/-! ## Siblings behind others -/

namespace Siblings

/-- The siblings with other nodes in front of them. -/
def onto (siblings : Siblings E) (base : List (Node E)) : Siblings E :=
  { siblings with placed := siblings.placed ++ base }

/-- Without a rule that goes on, nothing but nodes stands in front of what comes next. -/
theorem empty_onto (h : siblings.pending = none) : onto {} siblings.placed = siblings := by
  obtain ⟨placed, pending⟩ := siblings
  cases h
  rfl

/-- Nodes in front do not matter to where a node may stand. -/
theorem place_onto {line : Line} {node : Node E} (base : List (Node E)) :
    (siblings.onto base).place root line node =
      (siblings.place root line node).map (·.onto base) := by
  unfold place
  split <;> rfl

theorem placeAll_onto {line : Line} (nodes : List (Node E)) (base : List (Node E)) :
    nodes.foldlM (place root line) (siblings.onto base) =
      (nodes.foldlM (place root line) siblings).map (·.onto base) := by
  induction nodes generalizing siblings with
  | nil => rfl
  | cons node nodes ih =>
    rw [List.foldlM_cons, List.foldlM_cons, place_onto]
    cases siblings.place root line node with
    | error e => rfl
    | ok middle => exact ih

/-- Nor do they matter to a rule that goes on. -/
theorem addRule_onto {line : Line} {selectors : List Text} {node : Node E} (base : List (Node E)) :
    (siblings.onto base).addRule line selectors node =
      (siblings.addRule line selectors node).map (·.onto base) := by
  unfold addRule
  dsimp only
  split
  · rfl
  · split <;> rfl

/-- Whether others stand in front of siblings or not, the same is put behind them. Only a branch
needs a node that it belongs to. -/
theorem add_onto {line : Line} {outcome : Outcome E} (base : List (Node E))
    (hbranch : ∀ branch, outcome = .branch branch → siblings.placed ≠ []) :
    (siblings.onto base).add root line outcome =
      (siblings.add root line outcome).map (·.onto base) := by
  have hclosed : (siblings.onto base).closed = siblings.closed := rfl
  cases outcome with
  | node node =>
    unfold add
    dsimp only
    split
    · exact addRule_onto base
    · rw [hclosed, place_onto]
      cases siblings.closed <;> rfl
  | nodes nodes =>
    unfold add
    dsimp only
    rw [hclosed, placeAll_onto]
    cases siblings.closed <;> rfl
  | branch branch =>
    obtain ⟨placed, pending⟩ := siblings
    cases placed with
    | nil => exact absurd rfl (hbranch branch rfl)
    | cons node nodes =>
      unfold add
      dsimp only
      rw [hclosed]
      cases (Siblings.mk (node :: nodes) pending).closed <;> rfl

end Siblings

/-! ## Lines behind others -/

namespace Assembly

theorem branch_of_completes {line : Line} {outcome : Outcome E} {branch : Node E}
    (h : Completes services directories line state outcome (.branch branch) next) :
    ∃ alternative, outcome = .branch alternative := by
  cases h with
  | branch => exact ⟨_, rfl⟩

/-- A line that is put behind siblings says the same where others stand in front of these. -/
theorem line_onto {line : Line} (base : List (Node E))
    (h : Yields (Assembly.line services directories root siblings line) state added next) :
    Yields (Assembly.line services directories root (siblings.onto base) line) state
      (added.onto base) next := by
  obtain ⟨reading, outcome, completed, middle, hreading, houtcome, hcompletes, hadd⟩ := line_steps h
  have hbranch : ∀ branch, completed = .branch branch → siblings.placed ≠ [] := by
    rintro branch rfl hplaced
    obtain ⟨alternative, rfl⟩ := branch_of_completes hcompletes
    have hechoes := Reading.echoes_of_resolve (Reading.echoes_of_ofLine hreading) houtcome
    have hcond := hechoes.1
    unfold Siblings.afterConditional at hcond
    rw [hplaced] at hcond
    cases hcond
  have hreading' : Reading.ofLine (siblings.onto base).afterConditional line = .ok reading := by
    obtain ⟨placed, pending⟩ := siblings
    cases placed with
    | nil => exact Reading.ofLine_of_false hreading _
    | cons node nodes => exact hreading
  refine line_of_steps hreading' houtcome hcompletes ?_
  rw [Siblings.add_onto base hbranch, hadd]
  rfl

/-- What lines give alone they give behind other nodes as well. -/
theorem forest_onto {lines : List Line} (base : List (Node E))
    (h : Yields (forest services directories root siblings lines) state added next) :
    Yields (forest services directories root (siblings.onto base) lines) state (added.onto base)
      next := by
  induction lines generalizing siblings state with
  | nil =>
    rw [forest] at h ⊢
    obtain ⟨rfl, rfl⟩ := yields_pure.mp h
    exact yields_pure.mpr ⟨rfl, rfl⟩
  | cons first rest ih =>
    obtain ⟨between, middle, hfirst, hrest⟩ := forest_cons h
    rw [forest]
    exact yields_bind.mpr ⟨between.onto base, middle, line_onto base hfirst, ih hrest⟩

/-- Lines behind each other are assembled in two parts. -/
theorem forest_append {front back : List Line} {between : Siblings E} {middle : σ}
    (hfront : Yields (forest services directories root siblings front) state between middle)
    (hback : Yields (forest services directories root between back) middle added next) :
    Yields (forest services directories root siblings (front ++ back)) state added next := by
  induction front generalizing siblings state with
  | nil =>
    rw [forest] at hfront
    obtain ⟨rfl, rfl⟩ := yields_pure.mp hfront
    exact hback
  | cons first rest ih =>
    obtain ⟨after, point, hfirst, hrest⟩ := forest_cons hfront
    rw [List.cons_append, forest]
    exact yields_bind.mpr ⟨after, point, hfirst, ih hrest⟩

end Assembly

/-! ## Documents -/

namespace Document

/-- Two sources behind each other, the lower of which is numbered from an exact sum. -/
theorem parseWith_append {overrides : Overrides} {upper lower : Text} {document other : Document E}
    {middle : σ} (hend : upper.getLast? ≠ some '\r') (hstart : lower.head? ≠ some '\uFEFF')
    (hunit : ∀ unit, PhysicalLine.unit? (PhysicalLine.ofSource upper) = some unit →
      ∀ own, PhysicalLine.unit? (PhysicalLine.ofSource lower) = some own → unit = own)
    (hupper : Yields (parseWith services overrides upper) state document middle)
    (hlower : Yields
      (parseWith services
        { overrides with
          line := some (overrides.resolve.firstLine + (PhysicalLine.ofSource upper).length) } lower)
      middle other next) :
    Yields (parseWith services overrides (upper ++ '\n' :: lower)) state
      ⟨document.children ++ other.children, overrides.resolve⟩ next := by
  obtain ⟨lines, trees, after, siblings, hlines, hnest, hforest, hfinish, -⟩ :=
    steps_of_parseWith hupper
  obtain ⟨lines', trees', after', siblings', hlines', hnest', hforest', hfinish', -⟩ :=
    steps_of_parseWith hlower
  have hground := Line.grounded_of_ofSource hlines
  have hground' := Line.grounded_of_ofSource hlines'
  -- no rule goes on at the seam, so the lower lines are put behind nodes only
  obtain ⟨hpending, hplaced⟩ := Siblings.finish_eq_ok.mp hfinish
  obtain ⟨hpending', hplaced'⟩ := Siblings.finish_eq_ok.mp hfinish'
  have hback := Assembly.forest_onto siblings.placed hforest'
  rw [Siblings.empty_onto hpending] at hback
  refine parseWith_of_steps (Line.ofSource_append_cons hend hstart hunit hlines hlines')
    (Line.nest_append hground hground' hnest hnest') (Assembly.forest_append hforest hback) ?_
  refine Siblings.finish_eq_ok.mpr ⟨hpending', ?_⟩
  show (siblings'.placed ++ siblings.placed).reverse = _
  rw [List.reverse_append, hplaced, hplaced']

/-- Two sources behind each other, the lower of which is numbered in a way that determines the
numbers that its lines have behind the upper one. -/
theorem parse_append_renumbered {fs : FileSystem} {overrides : Overrides} {upper lower : Text}
    {document base : Document Expression} {number : Nat → Int} {f : Int → Int}
    (hend : upper.getLast? ≠ some '\r') (hstart : lower.head? ≠ some '\uFEFF')
    (hunit : ∀ unit, PhysicalLine.unit? (PhysicalLine.ofSource upper) = some unit →
      ∀ own, PhysicalLine.unit? (PhysicalLine.ofSource lower) = some own → unit = own)
    (hupper : parse fs overrides upper = .ok document)
    (hbase : numberedBy number fs overrides lower = .ok base)
    (hf : ∀ k < (PhysicalLine.ofSource lower).length, f (number k) =
      Number.plus overrides.resolve.firstLine ((PhysicalLine.ofSource upper).length + k)) :
    parse fs overrides (upper ++ '\n' :: lower) =
      .ok ⟨document.children ++ (base.relocate (.renumbering f)).children, overrides.resolve⟩ := by
  -- the exact sum may be no number that a source can start at, but it gives each line its number
  have hsums : ∀ k < (PhysicalLine.ofSource lower).length, f (number k) =
      Number.plus (overrides.resolve.firstLine + (PhysicalLine.ofSource upper).length) k := by
    intro k hk
    rw [hf k hk]
    unfold Number.plus
    rw [Int.add_assoc]
  have hlower : parse fs
      { overrides with
        line := some (overrides.resolve.firstLine + (PhysicalLine.ofSource upper).length) } lower =
      .ok (base.startingAt
        (overrides.resolve.firstLine + (PhysicalLine.ofSource upper).length) f) := by
    rw [parse_startingAt hsums, hbase]
    rfl
  have happend :=
    parseWith_append hend hstart hunit (parse_eq_ok.mp hupper) (parse_eq_ok.mp hlower)
  exact parse_eq_ok.mpr happend

/-- Where the starting line and the lines above add up without rounding, nothing is rounded
twice. -/
theorem plus_plus_of_exact {s : Int} {n : Nat} (h : Number.plus s n = s + n) (k : Int) :
    Number.plus (Number.plus s n) k = Number.plus s (n + k) := by
  rw [h]
  unfold Number.plus
  rw [Int.add_assoc]

/-- Two sources behind each other, with a line feed between them, give the nodes of both if each of
them can be read by itself, the lower one from the rounded sum of the starting line and the lines
above it. The line at position `k` of the lower source has the number `s + (n + k)` there, rounded
once, and by itself the number `(s + n) + k`, rounded twice. Where these are the same, as they are
if `s + n` is not rounded, the nodes are identical. -/
theorem parse_append {fs : FileSystem} {overrides : Overrides} {upper lower : Text}
    {document other : Document Expression} {s : Int} {n : Nat}
    (hs : overrides.resolve.firstLine = s) (hn : (PhysicalLine.ofSource upper).length = n)
    (hend : upper.getLast? ≠ some '\r') (hstart : lower.head? ≠ some '\uFEFF')
    (hunit : ∀ unit, PhysicalLine.unit? (PhysicalLine.ofSource upper) = some unit →
      ∀ own, PhysicalLine.unit? (PhysicalLine.ofSource lower) = some own → unit = own)
    (hupper : parse fs overrides upper = .ok document)
    (hlower : parse fs { overrides with line := some (Number.plus s n) } lower = .ok other) :
    ∃ base : Document Expression,
      numberedBy (fun k => k) fs overrides lower = .ok base ∧
      other = base.startingAt (Number.plus s n) (Number.plus (Number.plus s n)) ∧
      parse fs overrides (upper ++ '\n' :: lower) =
        .ok ⟨document.children ++
          (base.relocate (.renumbering fun k => Number.plus s (n + k))).children,
          overrides.resolve⟩ ∧
      (Number.plus s n = s + n ∨ (∀ k < (PhysicalLine.ofSource lower).length,
          Number.plus (Number.plus s n) k = Number.plus s (n + k)) →
        parse fs overrides (upper ++ '\n' :: lower) =
          .ok ⟨document.children ++ other.children, overrides.resolve⟩) := by
  subst hs hn
  -- both ways to number the lower source are renumberings of its reading from 0
  have hstarting : ∀ s : Int, parse fs { overrides with line := some s } lower =
      moved (.renumbering (Number.plus s)) (startingAt s (Number.plus s))
        (numberedBy (fun k => k) fs overrides lower) := fun s => parse_startingAt fun _ _ => rfl
  rw [hstarting] at hlower
  cases hbase : numberedBy (fun k => k) fs overrides lower with
  | error e =>
    rw [hbase] at hlower
    cases hlower
  | ok base =>
    rw [hbase] at hlower
    cases hlower
    refine ⟨base, rfl, rfl, ?_, fun hsums => ?_⟩
    · exact parse_append_renumbered hend hstart hunit hupper hbase fun _ _ => rfl
    · refine parse_append_renumbered hend hstart hunit hupper hbase ?_
      exact hsums.elim (fun hexact k _ => plus_plus_of_exact hexact k) id

/-- The theorem for a source that ends in a condition and one that starts with a condition. -/
theorem parse_append_of_conditions :
    ∃ document other : Document Expression,
      parse ⟨['/'], .empty⟩ {} "a,\nb\n  c: d\n@if $x\n  e" = .ok document ∧
      parse ⟨['/'], .empty⟩ { line := some 6 } "@if $y\n  f\n@else\n  g" = .ok other ∧
      parse ⟨['/'], .empty⟩ {} ("a,\nb\n  c: d\n@if $x\n  e" ++ '\n' :: "@if $y\n  f\n@else\n  g") =
        .ok ⟨document.children ++ other.children, Options.default⟩ ∧
      (document.children ++ other.children).map Node.site = [⟨1, none⟩, ⟨4, none⟩, ⟨6, none⟩] := by
  have hupper : (parse ⟨['/'], .empty⟩ {} "a,\nb\n  c: d\n@if $x\n  e").map
      (fun document => document.children.map Node.site) = .ok [⟨1, none⟩, ⟨4, none⟩] := by
    decide +kernel
  have hlower : (parse ⟨['/'], .empty⟩ { line := some 6 } "@if $y\n  f\n@else\n  g").map
      (fun document => document.children.map Node.site) = .ok [⟨6, none⟩] := by
    decide +kernel
  obtain ⟨document, hdocument, hsites⟩ := map_eq_ok.mp hupper
  obtain ⟨other, hother, hsites'⟩ := map_eq_ok.mp hlower
  refine ⟨document, other, hdocument, hother, ?_, ?_⟩
  · have hsame : PhysicalLine.unit? (PhysicalLine.ofSource "a,\nb\n  c: d\n@if $x\n  e") =
        PhysicalLine.unit? (PhysicalLine.ofSource "@if $y\n  f\n@else\n  g") := by
      decide
    obtain ⟨base, -, -, -, hidentical⟩ := parse_append (s := 1) (n := 5) rfl (by decide) (by decide)
      (by decide) (fun unit hunit own hown => by
        rw [hunit, hown] at hsame
        exact Option.some.inj hsame) hdocument hother
    exact hidentical (.inl rfl)
  · rw [List.map_append, hsites, hsites']
    rfl

/-- From 2 ^ 53 on the second of two lines is numbered 2 ^ 53 by itself where their source starts,
and 2 ^ 53 + 2 behind another line. -/
theorem parse_append_ne :
    ∃ document other : Document Expression,
      parse ⟨['/'], .empty⟩ { line := some 9007199254740992 } "a" = .ok document ∧
      parse ⟨['/'], .empty⟩ { line := some (Number.plus 9007199254740992 1) } "b\nc" = .ok other ∧
      document.children.map Node.site = [⟨9007199254740992, none⟩] ∧
      other.children.map Node.site = [⟨9007199254740992, none⟩, ⟨9007199254740992, none⟩] ∧
      (parse ⟨['/'], .empty⟩ { line := some 9007199254740992 } ("a" ++ '\n' :: "b\nc")).map
          (fun document => document.children.map Node.site) =
        .ok [⟨9007199254740992, none⟩, ⟨9007199254740992, none⟩, ⟨9007199254740994, none⟩] ∧
      parse ⟨['/'], .empty⟩ { line := some 9007199254740992 } ("a" ++ '\n' :: "b\nc") ≠
        .ok ⟨document.children ++ other.children,
          ({ line := some 9007199254740992 } : Overrides).resolve⟩ := by
  have hupper : (parse ⟨['/'], .empty⟩ { line := some 9007199254740992 } "a").map
      (fun document => document.children.map Node.site) = .ok [⟨9007199254740992, none⟩] := by
    decide +kernel
  have hlower : (parse ⟨['/'], .empty⟩ { line := some (Number.plus 9007199254740992 1) } "b\nc").map
      (fun document => document.children.map Node.site) =
      .ok [⟨9007199254740992, none⟩, ⟨9007199254740992, none⟩] := by
    decide +kernel
  have hboth : (parse ⟨['/'], .empty⟩ { line := some 9007199254740992 } ("a" ++ '\n' :: "b\nc")).map
      (fun document => document.children.map Node.site) =
      .ok [⟨9007199254740992, none⟩, ⟨9007199254740992, none⟩, ⟨9007199254740994, none⟩] := by
    decide +kernel
  obtain ⟨document, hdocument, hsites⟩ := map_eq_ok.mp hupper
  obtain ⟨other, hother, hsites'⟩ := map_eq_ok.mp hlower
  -- the sites of the concatenation are not those of the two documents behind each other
  refine ⟨document, other, hdocument, hother, hsites, hsites', hboth, fun heq => ?_⟩
  rw [heq] at hboth
  have hchildren : (document.children ++ other.children).map Node.site =
      [⟨9007199254740992, none⟩, ⟨9007199254740992, none⟩, ⟨9007199254740994, none⟩] :=
    Except.ok.inj hboth
  rw [List.map_append, hsites, hsites'] at hchildren
  exact absurd hchildren (by decide)

end Document

end Stylesheet
