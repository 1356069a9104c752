import Mathlib.Data.List.Chain
import Stylesheet.Proofs.Workspace.Reachability

/-!
# Noticed circles are the circles that there are

A traversal notices an import that leads back to a stylesheet on its own chain, and skips one that
leads to a stylesheet it is done with. This is enough to see every circle of imports, and nothing
but circles is seen.

- `Traversal.Led`: the visits that a traversal from an entry can be led to, each by an import.
- `CircularChain`: what the chain of a notice looks like; `circularChain_of_led` says that every
  notice has one.
- `Notice.Reports`, `Notice.Spared`: the imports that notices are about, and the other imports.
- `Traversal.Settled`: the invariant: from stylesheets that are done with, the imports that are
  spared lead to others of them and never around. `settled_of_visits`: the recursion preserves it.
- `Workspace.circles_of_explore`: an exploration that succeeds gives notice of a circle just where
  one can be reached, and without the imports noticed there is none.
-/

namespace Stylesheet

/-- A chain of paths from an entry on, without a path twice, on which each leads to the next, and
the last one leads to a target on the chain. -/
structure CircularChain {α : Type} (next : α → List α) (entry : α) (chain : List α) (target : α) :
    Prop where
  head : chain.head? = some entry
  linked : (chain ++ [target]).IsChain fun a b => b ∈ next a
  nodup : chain.Nodup
  closes : target ∈ chain

namespace Notice

/-- Some notice is about the import of one path by another: the two end its chain. -/
def Reports (notices : List Notice) (importer imported : Text) : Prop :=
  ∃ site front, .circularImport site (front ++ [importer, imported]) ∈ notices

/-- A path leads to another one, and no notice is about that. -/
def Spared (next : Text → List Text) (notices : List Notice) (importer imported : Text) : Prop :=
  imported ∈ next importer ∧ ¬Reports notices importer imported

/-- The words of a notice name the site in front of the chain. -/
theorem message_circularImport (site : Site) (chain : List Text) :
    (circularImport (some site) chain).message =
      "[terrace] (" ++ site.filename.getD "undefined" ++ ":" ++ Text.ofInt site.line ++
        ") Circular @import: " ++ Text.join " -> " chain ++ ". Skipping." := by
  have hfront : "[terrace] (".toList = "[terrace]".toList ++ " (".toList := rfl
  have hback : ") Circular @import: ".toList = ")".toList ++ " Circular @import: ".toList := rfl
  show "[terrace]".toList ++ site.reference ++ _ ++ _ ++ _ = _
  unfold Site.reference
  rw [hfront, hback]
  simp only [List.append_assoc]

/-- More notices spare fewer imports. -/
theorem Spared.mono {next : Text → List Text} {notices more : List Notice} {a b : Text}
    (hmore : ∀ notice ∈ notices, notice ∈ more) (h : Spared next more a b) :
    Spared next notices a b := by
  refine ⟨h.1, fun ⟨site, front, hmem⟩ => ?_⟩
  exact h.2 ⟨site, front, hmore _ hmem⟩

end Notice

namespace Traversal

variable {fs : FileSystem} {overrides : Overrides} {origin : Workspace} {entry : Text}
  {visit : Visit} {agenda : List Visit} {t final : Traversal} {sheet : Sheet}
  {result : Except SyntaxError Unit}

/-! ## Where visits come from -/

/-- The visits that a traversal from an entry can be led to: that of the entry, and those of the
imports of a stylesheet that is visited and does not stand on its own chain. -/
inductive Led (fs : FileSystem) (overrides : Overrides) (origin : Workspace) (entry : Text) :
    Visit → Prop where
  | entry : Led fs overrides origin entry { path := entry }
  | onward {visit : Visit} {sheet : Sheet} {imported : Document.SheetImport}
    (hvisit : Led fs overrides origin entry visit) (hchain : visit.path ∉ visit.chain)
    (hsheet : origin.lookup fs overrides visit.path ⟨1, none⟩ = .ok sheet)
    (himported : imported ∈ sheet.imports) :
    Led fs overrides origin entry
      ⟨imported.path, visit.chain ++ [visit.path], some imported.site⟩

/-- The paths that a stylesheet imports are those that it leads to. -/
theorem mem_targets {imported : Document.SheetImport} {path : Text}
    (hsheet : origin.lookup fs overrides path ⟨1, none⟩ = .ok sheet)
    (himported : imported ∈ sheet.imports) : imported.path ∈ origin.targets fs overrides path := by
  rw [Workspace.targets_of_lookup hsheet]
  exact List.mem_map_of_mem himported

/-- Every path on the chain of a visit leads to the path that is visited. -/
theorem Led.transGen (h : Led fs overrides origin entry visit) :
    ∀ a ∈ visit.chain,
      Relation.TransGen (fun a b => b ∈ origin.targets fs overrides a) a visit.path := by
  induction h with
  | entry => exact fun a ha => absurd ha List.not_mem_nil
  | @onward visit sheet imported _ _ hsheet himported ih =>
    have hstep := mem_targets hsheet himported
    intro a ha
    rcases List.mem_append.mp ha with ha | ha
    · exact (ih a ha).tail hstep
    · rw [List.mem_singleton.mp ha]
      exact .single hstep

/-- Without its last path, which is visited, a chain is that of another visit. -/
theorem Led.linked (h : Led fs overrides origin entry visit) :
    (visit.chain ++ [visit.path]).head? = some entry ∧ visit.chain.Nodup ∧
      (visit.chain ++ [visit.path]).IsChain fun a b => b ∈ origin.targets fs overrides a := by
  induction h with
  | entry => exact ⟨rfl, .nil, .singleton _⟩
  | @onward visit sheet imported _ hchain hsheet himported ih =>
    obtain ⟨hhead, hnodup, hlinked⟩ := ih
    refine ⟨?_, ?_, ?_⟩
    · show (visit.chain ++ [visit.path] ++ [imported.path]).head? = some entry
      rw [List.head?_append, hhead]
      rfl
    · -- the path was not on the chain when it was visited, or the visit would have closed a circle
      show (visit.chain ++ [visit.path]).Nodup
      rw [List.nodup_append]
      refine ⟨hnodup, List.pairwise_singleton _ _, fun a ha b hb heq => hchain ?_⟩
      rw [← List.mem_singleton.mp hb, ← heq]
      exact ha
    · show (visit.chain ++ [visit.path] ++ [imported.path]).IsChain _
      rw [List.append_assoc]
      exact List.isChain_append_cons_cons.mpr ⟨hlinked, mem_targets hsheet himported, .singleton _⟩

/-- What is visited can be reached from the entry. -/
theorem Led.reaches (h : Led fs overrides origin entry visit) :
    Reaches (origin.targets fs overrides) entry visit.path := by
  induction h with
  | entry => exact .refl
  | onward _ _ hsheet himported ih => exact ih.tail (mem_targets hsheet himported)

/-- A visit that closes a circle is that of an import of the last path on its chain, to which the
imported path leads back. -/
theorem Led.circular (h : Led fs overrides origin entry visit) (hcircle : visit.path ∈ visit.chain) :
    ∃ front importer sheet, ∃ imported ∈ sheet.imports,
      visit = ⟨imported.path, front ++ [importer], some imported.site⟩ ∧
      origin.lookup fs overrides importer ⟨1, none⟩ = .ok sheet ∧
      CircularChain (origin.targets fs overrides) entry (front ++ [importer]) imported.path ∧
      Reaches (origin.targets fs overrides) entry importer ∧
      Reaches (origin.targets fs overrides) imported.path importer := by
  obtain ⟨-, hnodup, hlinked⟩ := h.linked
  cases h with
  | entry => exact absurd hcircle List.not_mem_nil
  | @onward visit sheet imported hvisit _ hsheet himported =>
    obtain ⟨hhead, -, -⟩ := hvisit.linked
    have hback : Reaches (origin.targets fs overrides) imported.path visit.path := by
      rcases List.mem_append.mp hcircle with hmem | hmem
      · exact (hvisit.transGen _ hmem).to_reflTransGen
      · have hself : imported.path = visit.path := List.mem_singleton.mp hmem
        rw [hself]
        exact .refl
    exact ⟨visit.chain, visit.path, sheet, imported, himported, rfl, hsheet,
      ⟨hhead, hlinked, hnodup, hcircle⟩, hvisit.reaches, hback⟩

/-- The visits to the imports of a stylesheet are led to, if the visit to it is. -/
theorem led_of_mem_onward (hvisit : Led fs overrides origin entry visit)
    (hchain : visit.path ∉ visit.chain) (hfaithful : Faithful fs overrides origin t)
    (hanswer : t.answer fs overrides visit = .ok sheet) :
    ∀ next ∈ onward visit sheet, Led fs overrides origin entry next := by
  intro next hnext
  obtain ⟨imported, himported, rfl⟩ := List.mem_map.mp hnext
  exact .onward hvisit hchain (Workspace.lookup_site (hfaithful.lookup_of_answer hanswer) _) himported

/-- The notices of a traversal are those of visits that close a circle. -/
def Warranted (fs : FileSystem) (overrides : Overrides) (origin : Workspace) (entry : Text)
    (t : Traversal) : Prop :=
  ∀ notice ∈ t.notices, ∃ visit, Led fs overrides origin entry visit ∧ visit.path ∈ visit.chain ∧
    notice = .circularImport visit.site (visit.chain ++ [visit.path])

/-- The recursion gives no other notices, even if it fails. -/
theorem warranted_of_visits (h : Visits fs overrides agenda t result final)
    (hfaithful : Faithful fs overrides origin t)
    (hagenda : ∀ visit ∈ agenda, Led fs overrides origin entry visit)
    (hstart : Warranted fs overrides origin entry t) :
    Warranted fs overrides origin entry final := by
  induction h with
  | done | failed => exact hstart
  | @circle visit _ t _ _ hchain _ ih =>
    obtain ⟨hvisit, hagenda⟩ := List.forall_mem_cons.mp hagenda
    refine ih (hfaithful.circled visit) hagenda fun notice hnotice => ?_
    -- only a visit that closes a circle gives a notice, and that is the one it gives
    rcases List.mem_append.mp hnotice with hnotice | hnotice
    · exact hstart notice hnotice
    · exact ⟨visit, hvisit, hchain, List.mem_singleton.mp hnotice⟩
  | known _ _ _ ih =>
    obtain ⟨-, hagenda⟩ := List.forall_mem_cons.mp hagenda
    exact ih hfaithful hagenda hstart
  | entered hchain _ hanswer hinner _ ihInner ihRest =>
    obtain ⟨hvisit, hagenda⟩ := List.forall_mem_cons.mp hagenda
    have hmiddle := ihInner (hfaithful.visited hanswer)
      (led_of_mem_onward hvisit hchain hfaithful hanswer) hstart
    exact ihRest (faithful_of_visits hinner (hfaithful.visited hanswer)) hagenda hmiddle
  | stopped hchain _ hanswer _ ihInner =>
    obtain ⟨hvisit, -⟩ := List.forall_mem_cons.mp hagenda
    exact ihInner (hfaithful.visited hanswer) (led_of_mem_onward hvisit hchain hfaithful hanswer)
      hstart

/-! ## Stylesheets that are done with -/

/-- A stylesheet that has been visited and does not stand on the chain any more. -/
def DoneWith (t : Traversal) (chain : List Text) (path : Text) : Prop :=
  path ∈ t.graph.keys ∧ path ∉ chain

/-- From stylesheets that are done with, the imports that are spared lead to others of them, and
never around. -/
structure Settled (next : Text → List Text) (chain : List Text) (t : Traversal) : Prop where
  closed : ∀ a, t.DoneWith chain a → ∀ b, Notice.Spared next t.notices a b → t.DoneWith chain b
  acyclic : ∀ a, t.DoneWith chain a → ¬Relation.TransGen (Notice.Spared next t.notices) a a

/-- The traversal has answered a visit: either a notice is about it, or its stylesheet is done
with. -/
def Answered (t : Traversal) (visit : Visit) : Prop :=
  .circularImport visit.site (visit.chain ++ [visit.path]) ∈ t.notices ∨
    t.DoneWith visit.chain visit.path

/-- At the start nothing is done with. -/
theorem settled_start (next : Text → List Text) (origin : Workspace) :
    Settled next [] { workspace := origin } where
  closed _ h := absurd h.1 List.not_mem_nil
  acyclic _ h := absurd h.1 List.not_mem_nil

/-- What a traversal has visited and noticed, it keeps. -/
theorem grown_of_visits (h : Visits fs overrides agenda t result final) :
    (∀ path ∈ t.graph.keys, path ∈ final.graph.keys) ∧
      ∀ notice ∈ t.notices, notice ∈ final.notices := by
  have hvisited : ∀ {t : Traversal} {visit : Visit} {sheet : Sheet},
      t.graph.contains visit.path = false →
      ∀ path ∈ t.graph.keys, path ∈ (t.visited visit.path sheet).graph.keys := by
    intro t visit sheet hnew path hpath
    rw [keys_visited hnew]
    exact List.mem_append_left _ hpath
  induction h with
  | done | failed => exact ⟨fun _ h => h, fun _ h => h⟩
  | circle _ _ ih => exact ⟨ih.1, fun notice hnotice => ih.2 notice (List.mem_append_left _ hnotice)⟩
  | known _ _ _ ih => exact ih
  | entered _ hnew _ _ _ ihInner ihRest =>
    exact ⟨fun path hpath => ihRest.1 path (ihInner.1 path (hvisited hnew path hpath)),
      fun notice hnotice => ihRest.2 notice (ihInner.2 notice hnotice)⟩
  | stopped _ hnew _ _ ihInner =>
    exact ⟨fun path hpath => ihInner.1 path (hvisited hnew path hpath), ihInner.2⟩

/-- A visit stays answered: notices are only added, and what is done with stays so. -/
theorem Answered.of_visits (h : Visits fs overrides agenda t result final)
    (hanswered : t.Answered visit) : final.Answered visit := by
  obtain ⟨hkeys, hnotices⟩ := grown_of_visits h
  rcases hanswered with hnotice | ⟨hmem, hchain⟩
  · exact .inl (hnotices _ hnotice)
  · exact .inr ⟨hkeys _ hmem, hchain⟩

/-- One more notice unsettles nothing. -/
theorem Settled.circled {next : Text → List Text} {chain : List Text} (h : Settled next chain t)
    (visit : Visit) : Settled next chain (t.circled visit) := by
  have hspared : ∀ a b, Notice.Spared next (t.circled visit).notices a b →
      Notice.Spared next t.notices a b := by
    intro a b
    exact Notice.Spared.mono fun notice hnotice => List.mem_append_left _ hnotice
  constructor
  · intro a ha b hb
    exact h.closed a ha b (hspared a b hb)
  · intro a ha hcycle
    exact h.acyclic a ha (Relation.TransGen.mono hspared _ _ hcycle)

/-- A stylesheet that has just been visited is not done with, as it stands on the chain now. -/
theorem Settled.visited {next : Text → List Text} {chain : List Text} {path : Text}
    (h : Settled next chain t) (hnew : t.graph.contains path = false) :
    Settled next (chain ++ [path]) (t.visited path sheet) := by
  -- the chain grows with the graph, so what is done with stays the same
  have hdone : ∀ a, (t.visited path sheet).DoneWith (chain ++ [path]) a ↔ t.DoneWith chain a := by
    intro a
    unfold DoneWith
    rw [keys_visited hnew, List.mem_append, List.mem_append, List.mem_singleton]
    constructor
    · rintro ⟨hmem | hmem, hchain⟩
      · exact ⟨hmem, fun h => hchain (.inl h)⟩
      · exact absurd (.inr hmem) hchain
    · rintro ⟨hmem, hchain⟩
      refine ⟨.inl hmem, ?_⟩
      rintro (hmem' | rfl)
      · exact hchain hmem'
      · exact Table.not_mem_keys_of_contains hnew hmem
  constructor
  · intro a ha b hb
    rw [hdone] at ha ⊢
    exact h.closed a ha b hb
  · intro a ha
    exact h.acyclic a ((hdone a).mp ha)

/-- A stylesheet is done with once its imports are answered. The imports of it that are spared lead
to stylesheets that were done with before it, so no way leads back. -/
theorem Settled.left {next : Text → List Text} {chain : List Text} {path : Text}
    (h : Settled next (chain ++ [path]) t)
    (hanswered : ∀ b ∈ next path, ∃ site, t.Answered ⟨b, chain ++ [path], site⟩) :
    Settled next chain t := by
  have hweaken : ∀ b, t.DoneWith (chain ++ [path]) b → t.DoneWith chain b := by
    rintro b ⟨hmem, hchain⟩
    exact ⟨hmem, fun h => hchain (List.mem_append_left _ h)⟩
  have hsplit : ∀ a, t.DoneWith chain a → a = path ∨ t.DoneWith (chain ++ [path]) a := by
    rintro a ⟨hmem, hchain⟩
    by_cases heq : a = path
    · exact .inl heq
    · refine .inr ⟨hmem, fun h => ?_⟩
      rcases List.mem_append.mp h with h | h
      · exact hchain h
      · exact heq (List.mem_singleton.mp h)
  -- an import of the path is spared only if no notice is about it, so its stylesheet is done with
  have hpath : ∀ b, Notice.Spared next t.notices path b → t.DoneWith (chain ++ [path]) b := by
    rintro b ⟨hb, hspared⟩
    obtain ⟨site, hnotice | hdone⟩ := hanswered b hb
    · refine absurd ⟨site, chain, ?_⟩ hspared
      rw [List.append_assoc] at hnotice
      exact hnotice
    · exact hdone
  -- what is done with leads to nothing else, so no way from there reaches the path on the chain
  have hreach : ∀ a b, t.DoneWith (chain ++ [path]) a →
      Relation.ReflTransGen (Notice.Spared next t.notices) a b →
      t.DoneWith (chain ++ [path]) b := by
    intro a b ha hab
    induction hab with
    | refl => exact ha
    | tail _ hstep ih => exact h.closed _ ih _ hstep
  constructor
  · intro a ha b hb
    rcases hsplit a ha with rfl | ha
    · exact hweaken b (hpath b hb)
    · exact hweaken b (h.closed a ha b hb)
  · intro a ha hcycle
    rcases hsplit a ha with rfl | ha
    · obtain ⟨b, hfirst, hback⟩ := Relation.TransGen.head'_iff.mp hcycle
      have hself := hreach b a (hpath b hfirst) hback
      exact hself.2 (List.mem_append_right _ (List.mem_singleton.mpr rfl))
    · exact h.acyclic a ha hcycle

/-- The recursion over visits with one chain answers all of them and leaves the stylesheets that are
done with settled. -/
theorem settled_of_visits (h : Visits fs overrides agenda t result final) (hresult : result = .ok ())
    (hfaithful : Faithful fs overrides origin t) {chain : List Text}
    (hchain : ∀ visit ∈ agenda, visit.chain = chain)
    (hstart : Settled (origin.targets fs overrides) chain t) :
    Settled (origin.targets fs overrides) chain final ∧ ∀ visit ∈ agenda, final.Answered visit := by
  -- on the derivation: a circle is answered by its notice, any other visit by its stylesheet
  induction h generalizing chain with
  | done => exact ⟨hstart, fun visit hvisit => absurd hvisit List.not_mem_nil⟩
  | failed | stopped => cases hresult
  | @circle visit agenda t final _ _ hrest ih =>
    obtain ⟨-, hagenda⟩ := List.forall_mem_cons.mp hchain
    obtain ⟨hsettled, hall⟩ := ih hresult (hfaithful.circled visit) hagenda (hstart.circled visit)
    refine ⟨hsettled, List.forall_mem_cons.mpr ⟨.of_visits hrest (.inl ?_), hall⟩⟩
    exact List.mem_append_right _ (List.mem_singleton.mpr rfl)
  | @known visit agenda t final _ hnot hknown hrest ih =>
    obtain ⟨-, hagenda⟩ := List.forall_mem_cons.mp hchain
    obtain ⟨hsettled, hall⟩ := ih hresult hfaithful hagenda hstart
    refine ⟨hsettled, List.forall_mem_cons.mpr ⟨.of_visits hrest (.inr ⟨?_, hnot⟩), hall⟩⟩
    exact Table.contains_iff_mem_keys.mp hknown
  | @entered visit agenda t middle final sheet _ hnot hnew hanswer hinner hrest ihInner ihRest =>
    obtain ⟨rfl, hagenda⟩ := List.forall_mem_cons.mp hchain
    have hvisited := hfaithful.visited hanswer
    have honward : ∀ next ∈ onward visit sheet, next.chain = visit.chain ++ [visit.path] := by
      intro next hnext
      obtain ⟨_, -, rfl⟩ := List.mem_map.mp hnext
      rfl
    obtain ⟨hinside, hanswered⟩ := ihInner rfl hvisited honward (hstart.visited hnew)
    have hmiddle : Settled (origin.targets fs overrides) visit.chain middle := by
      refine hinside.left fun b hb => ?_
      rw [Workspace.targets_of_lookup (hfaithful.lookup_of_answer hanswer)] at hb
      obtain ⟨imported, himported, rfl⟩ := List.mem_map.mp hb
      exact ⟨some imported.site, hanswered _ (List.mem_map_of_mem himported)⟩
    obtain ⟨hsettled, hall⟩ :=
      ihRest hresult (faithful_of_visits hinner hvisited) hagenda hmiddle
    refine ⟨hsettled, List.forall_mem_cons.mpr ⟨.of_visits hrest (.inr ⟨?_, hnot⟩), hall⟩⟩
    refine (grown_of_visits hinner).1 _ ?_
    rw [keys_visited hnew]
    exact List.mem_append_right _ (List.mem_singleton.mpr rfl)

end Traversal

/-! ## Explorations -/

namespace Workspace

variable {fs : FileSystem} {overrides : Overrides} {workspace : Workspace} {entry : Text}
  {graph : Table Text Sheet}

/-- A notice of an exploration is about an import that leads back to a stylesheet on the chain from
the entry to the importer. -/
theorem notices_of_explore (h : (workspace.explore fs overrides entry).result = .ok graph) :
    ∀ notice ∈ (workspace.explore fs overrides entry).notices,
      ∃ front importer sheet, ∃ imported ∈ sheet.imports,
        notice = .circularImport (some imported.site) (front ++ [importer, imported.path]) ∧
        graph.get? importer = some sheet ∧
        CircularChain (workspace.targets fs overrides) (fs.resolve entry) (front ++ [importer])
          imported.path ∧
        Reaches (workspace.targets fs overrides) (fs.resolve entry) importer ∧
        Reaches (workspace.targets fs overrides) imported.path importer := by
  obtain ⟨final', hgraph, -, hfaithful, horder⟩ := steps_of_explore h
  obtain ⟨result, final, hvisits, hexplore⟩ := explore_visits fs overrides workspace entry
  have hwarranted : Traversal.Warranted fs overrides workspace (fs.resolve entry) final :=
    Traversal.warranted_of_visits hvisits (Traversal.faithful_start workspace)
      (List.forall_mem_singleton.mpr .entry) fun notice hnotice => absurd hnotice List.not_mem_nil
  intro notice hnotice
  rw [hexplore] at hnotice
  obtain ⟨visit, hled, hcircle, rfl⟩ := hwarranted notice hnotice
  obtain ⟨front, importer, sheet, imported, himported, rfl, hsheet, hchain, hreaches, hback⟩ :=
    hled.circular hcircle
  refine ⟨front, importer, sheet, imported, himported, ?_, ?_, hchain, hreaches, hback⟩
  · rw [List.append_assoc]
    rfl
  · -- the importer is visited, with the stylesheet that it was at the start
    obtain ⟨visited, hvisited⟩ := Table.exists_get?_of_mem_keys (horder.mem_iff_reaches.mpr hreaches)
    rw [← hgraph] at hvisited
    have hsame := hfaithful.lookup_of_get? hvisited ⟨1, none⟩
    rw [hsheet] at hsame
    cases hsame
    rw [← hgraph]
    exact hvisited

/-- Without the imports that an exploration has noticed, no way leads around. -/
theorem acyclic_of_explore (h : (workspace.explore fs overrides entry).result = .ok graph)
    (path : Text) (hpath : Reaches (workspace.targets fs overrides) (fs.resolve entry) path) :
    ¬Relation.TransGen
      (Notice.Spared (workspace.targets fs overrides) (workspace.explore fs overrides entry).notices)
      path path := by
  obtain ⟨_, -, -, -, horder⟩ := steps_of_explore h
  obtain ⟨result, final, hvisits, hexplore⟩ := explore_visits fs overrides workspace entry
  rw [hexplore] at h ⊢
  obtain ⟨_, hresult, rfl⟩ := map_eq_ok.mp h
  obtain ⟨hsettled, -⟩ := Traversal.settled_of_visits hvisits hresult
    (Traversal.faithful_start workspace) (List.forall_mem_singleton.mpr rfl)
    (Traversal.settled_start _ workspace)
  exact hsettled.acyclic path ⟨horder.mem_iff_reaches.mpr hpath, List.not_mem_nil⟩

/-- An exploration that succeeds notices circles of imports and nothing else. It gives a notice if
and only if a stylesheet that can be reached from the entry leads back to itself. A notice shows a
chain from the entry, on which each stylesheet imports the next one and none stands twice, and an
edge back: the last of them imports one on the chain, and the site of this import is named in front
of the chain. An import that is noticed lies on a circle, so that several ways to a stylesheet are no
reason for a notice; and without the imports noticed there is no circle among the stylesheets that
can be reached. -/
theorem circles_of_explore (h : (workspace.explore fs overrides entry).result = .ok graph) :
    ((workspace.explore fs overrides entry).notices ≠ [] ↔
      ∃ path, Reaches (workspace.targets fs overrides) (fs.resolve entry) path ∧
        Relation.TransGen (fun a b => b ∈ workspace.targets fs overrides a) path path) ∧
    (∀ notice ∈ (workspace.explore fs overrides entry).notices,
      ∃ front importer sheet, ∃ imported ∈ sheet.imports,
        notice = .circularImport (some imported.site) (front ++ [importer, imported.path]) ∧
        graph.get? importer = some sheet ∧
        CircularChain (workspace.targets fs overrides) (fs.resolve entry) (front ++ [importer])
          imported.path ∧
        notice.message =
          "[terrace] (" ++ imported.site.filename.getD "undefined" ++ ":" ++
            Text.ofInt imported.site.line ++ ") Circular @import: " ++
            Text.join " -> " (front ++ [importer, imported.path]) ++ ". Skipping.") ∧
    (∀ importer imported,
      Notice.Reports (workspace.explore fs overrides entry).notices importer imported →
      Reaches (workspace.targets fs overrides) imported importer) ∧
    ∀ path, Reaches (workspace.targets fs overrides) (fs.resolve entry) path →
      ¬Relation.TransGen
        (Notice.Spared (workspace.targets fs overrides)
          (workspace.explore fs overrides entry).notices) path path := by
  refine ⟨⟨fun hne => ?_, ?_⟩, fun notice hnotice => ?_, ?_, acyclic_of_explore h⟩
  · obtain ⟨notice, hnotice⟩ := List.exists_mem_of_ne_nil _ hne
    obtain ⟨_, importer, sheet, imported, himported, -, -, hchain, hreaches, hback⟩ :=
      notices_of_explore h notice hnotice
    have hstep : imported.path ∈ workspace.targets fs overrides importer := by
      have hlinked := hchain.linked
      rw [List.append_assoc] at hlinked
      exact (List.isChain_append_cons_cons.mp hlinked).2.1
    exact ⟨imported.path, hreaches.tail hstep, .tail' hback hstep⟩
  · -- without a notice every import is spared, and the spared imports have no circle
    rintro ⟨path, hpath, hcycle⟩ hnone
    refine acyclic_of_explore h path hpath (Relation.TransGen.mono ?_ _ _ hcycle)
    rintro a b hstep
    refine ⟨hstep, ?_⟩
    rintro ⟨_, _, hnotice⟩
    rw [hnone] at hnotice
    exact absurd hnotice List.not_mem_nil
  · obtain ⟨front, importer, sheet, imported, himported, rfl, hget, hchain, -, -⟩ :=
      notices_of_explore h notice hnotice
    exact ⟨front, importer, sheet, imported, himported, rfl, hget, hchain,
      Notice.message_circularImport _ _⟩
  · rintro importer imported ⟨site, front, hnotice⟩
    obtain ⟨front', importer', sheet, imported', -, heq, -, -, -, hback⟩ :=
      notices_of_explore h _ hnotice
    have hlists : front ++ [importer, imported] = front' ++ [importer', imported'.path] :=
      (Notice.circularImport.inj heq).2
    obtain ⟨-, hlast⟩ := List.append_inj' hlists rfl
    obtain ⟨himporter, hlast⟩ := List.cons.inj hlast
    obtain ⟨himported, -⟩ := List.cons.inj hlast
    rw [himporter, himported]
    exact hback

/-- A stylesheet that two others import, of which it imports one itself. -/
def diamondFiles : FileSystem where
  working := ['/']
  entries :=
    .insert
      (.insert
        (.insert (.insert .empty "/main.terrace" (.file "@import left, right")) "/left.terrace"
          (.file "@import base"))
        "/right.terrace" (.file "@import base"))
      "/base.terrace" (.file "!x = 1\n@import left")

/-- The circle is noticed once, and the second way to the stylesheet is not. -/
theorem circles_of_diamond :
    ∃ graph, (empty.explore diamondFiles {} "main.terrace").result = .ok graph ∧
      (empty.explore diamondFiles {} "main.terrace").notices =
        [.circularImport (some ⟨2, some "/base.terrace"⟩)
          ["/main.terrace", "/left.terrace", "/base.terrace", "/left.terrace"]] ∧
      (∃ path, Reaches (empty.targets diamondFiles {}) "/main.terrace" path ∧
        Relation.TransGen (fun a b => b ∈ empty.targets diamondFiles {} a) path path) ∧
      ∀ path, Reaches (empty.targets diamondFiles {}) "/main.terrace" path →
        ¬Relation.TransGen
          (Notice.Spared (empty.targets diamondFiles {})
            (empty.explore diamondFiles {} "main.terrace").notices) path path := by
  have hrun : (empty.explore diamondFiles {} "main.terrace").result.isOk = true := by
    decide +kernel
  have hnotices : (empty.explore diamondFiles {} "main.terrace").notices =
      [.circularImport (some ⟨2, some "/base.terrace"⟩)
        ["/main.terrace", "/left.terrace", "/base.terrace", "/left.terrace"]] := by
    decide +kernel
  have hentry : diamondFiles.resolve "main.terrace" = ("/main.terrace" : Text) := by decide +kernel
  obtain ⟨graph, hgraph⟩ := exists_eq_ok.mp hrun
  obtain ⟨hcircle, -, -, hacyclic⟩ := circles_of_explore hgraph
  rw [hentry] at hcircle hacyclic
  refine ⟨graph, hgraph, hnotices, hcircle.mp ?_, hacyclic⟩
  rw [hnotices]
  exact List.cons_ne_nil _ _

end Workspace

end Stylesheet
