import Stylesheet.Proofs.Server.Uses

/-!
# What an import stands for after files have come and gone

The name in an import is resolved when the importing stylesheet is read. It stands for the same file
while the server holds this stylesheet, whichever files come and go, and is resolved again when the
stylesheet is read anew.

- `Server.Found`, `Server.ReadSince`: the texts that uses over the same files may read, and what
  these are read as.
- `Server.had_of_moduleGraph`: what a module is made of is held from before, or has been read since.
- `Server.targets_of_transform`: which files the module of a stylesheet embeds for an import whose
  name is resolved to another file now.
-/

namespace Stylesheet.Server

variable {server : Server} {overrides : Overrides} {before fs : FileSystem} {uses later : List Use}
  {use : Use} {sheet : Sheet} {graph : Table Text Sheet} {line : Line}
  {path importer source name old new address code id text : Text}

/-! ## What is read over the same files -/

/-- The text is that of the file at a path, or is handed over for it in one of some uses. -/
def Found (fs : FileSystem) (uses : List Use) (path source : Text) : Prop :=
  fs.read? path = some source ∨
    ∃ id, Use.request fs source id ∈ uses ∧ fs.resolve (withoutQuery id) = path

/-- The stylesheet is what a text that is found so is read as, over the same files. -/
def ReadSince (fs : FileSystem) (overrides : Overrides) (uses : List Use) (path : Text)
    (sheet : Sheet) : Prop :=
  ∃ source, Found fs uses path source ∧ Workspace.readSheet fs overrides path source = .ok sheet

/-- To be told of a change is not to read. -/
theorem Use.not_gives_notify : ¬(Use.notify fs address).Gives overrides path sheet := by
  rintro ⟨operation, hoperation, _, _, _, hreads, -⟩
  unfold Use.operation? at hoperation
  dsimp only at hoperation
  split at hoperation
  · cases hoperation
    cases hreads
  · cases hoperation

theorem Use.Gives.readSince (h : use.Gives overrides path sheet) (hline : overrides.line = none)
    (hmem : use ∈ uses) (hfiles : use.files = fs) : ReadSince fs overrides uses path sheet := by
  cases use with
  | notify => exact absurd h not_gives_notify
  | request fs code id =>
    cases hfiles
    obtain ⟨operation, hoperation, _, _, _, hreads, hsheet⟩ := h
    unfold Use.operation? at hoperation
    dsimp only at hoperation
    split at hoperation
    · cases hoperation
      cases hreads with
      | imported hread => exact ⟨_, .inl hread, hsheet.parsed⟩
      | given =>
        rw [Overrides.forText_of_line hline] at hsheet
        exact ⟨_, .inr ⟨id, hmem, rfl⟩, hsheet.parsed⟩
    · cases hoperation

/-- What a module is made of was held before some uses over the same files and has not been dropped,
or has been read since. -/
theorem had_of_moduleGraph {entry : Sheet} (hline : server.overrides.line = none)
    (hlater : ∀ use ∈ later, use.files = fs)
    (hentry : Workspace.entrySheet fs server.overrides code (withoutQuery id) = .ok entry)
    (hgraph : (later.foldl after server).workspace.moduleGraph fs server.overrides code
      (withoutQuery id) = .ok graph)
    (hget : graph.get? path = some sheet) :
    (path ≠ fs.resolve (withoutQuery id) ∧ server.workspace.sheets.get? path = some sheet ∧
        ∀ use ∈ later, ¬use.Drops path) ∨
      ReadSince fs server.overrides (later ++ [.request fs code id]) path sheet := by
  obtain ⟨hself, hothers⟩ := Workspace.steps_of_moduleGraph hentry hgraph
  by_cases hpath : path = fs.resolve (withoutQuery id)
  · cases hpath
    rw [hself] at hget
    cases hget
    rw [Workspace.entrySheet_eq_readSheet hline] at hentry
    exact .inr ⟨code, .inr ⟨id, List.mem_append_right _ List.mem_cons_self, rfl⟩, hentry⟩
  · -- all but the text that is handed over is had from the server as it is then
    rcases Workspace.lookup_eq_ok.mp ((hothers path sheet hget).1 hpath ⟨1, none⟩) with
      hheld | ⟨-, source, hread, hsheet⟩
    · rcases held_afterAll hheld with ⟨hbefore, hkept⟩ | ⟨use, hmem, hgives⟩
      · exact .inl ⟨hpath, hbefore, hkept⟩
      · exact .inr (hgives.readSince hline (List.mem_append_left _ hmem) (hlater use hmem))
    · exact .inr ⟨source, .inl hread, hsheet⟩

/-! ## What is imported -/

/-- What a server that has been told of a change holds was held before, and is not the changed
file. -/
theorem held_of_notified
    (h : (server.after (.notify fs address)).workspace.sheets.get? path = some sheet) :
    server.workspace.sheets.get? path = some sheet ∧ ¬(Use.notify fs address).Drops path := by
  have h : ([Use.notify fs address].foldl after server).workspace.sheets.get? path = some sheet := h
  rcases held_afterAll h with ⟨hheld, hkept⟩ | ⟨use, hmem, hgives⟩
  · exact ⟨hheld, hkept _ List.mem_cons_self⟩
  · rw [List.mem_singleton.mp hmem] at hgives
    exact absurd hgives Use.not_gives_notify

/-- What is found for an entry of a stylesheet is imported. -/
theorem mem_imports_of_find (hread : Workspace.readSheet fs overrides importer source = .ok sheet)
    (hasked : (line, .sheet name) ∈ Document.askings (overrides.forFile importer) source)
    (hfind : fs.find name (overrides.forFile importer).resolve.searchPath = .ok path)
    (hname : cssExtension.isSuffixOf name = false) :
    path ∈ sheet.imports.map Document.SheetImport.path :=
  Document.mem_imports_of_find hread hasked hfind (FileSystem.not_css_of_find hfind hname)

/-- A name that is resolved to different files is that of no plain style sheet. -/
theorem not_css_of_moved {directories : List Text} (hold : before.find name directories = .ok old)
    (hnew : fs.find name directories = .ok new) (hmoved : old ≠ new) :
    cssExtension.isSuffixOf name = false := by
  cases hcss : cssExtension.isSuffixOf name with
  | false => rfl
  | true =>
    unfold FileSystem.find at hold hnew
    rw [if_pos hcss] at hold hnew
    cases hold
    cases hnew
    exact absurd rfl hmoved

/-- Let a server hold a stylesheet that was read when a name in one of its imports stood for another
file than now, and be told of a change. A module that is made afterwards embeds the new file if the
importing stylesheet has been read anew since. This is so for the stylesheet that is asked for, and
for one that has been dropped. Otherwise the module is made of the stylesheet that was held, and
embeds the old file. And of the file that the server was told of, nothing is embedded that was read
before. -/
theorem targets_of_transform (server : Server) (hline : server.overrides.line = none)
    (hheld : server.workspace.sheets.get? importer = some sheet)
    (hread : Workspace.readSheet before server.overrides importer source = .ok sheet)
    (hasked : (line, .sheet name) ∈ Document.askings (server.overrides.forFile importer) source)
    (hold : before.find name (server.overrides.forFile importer).resolve.searchPath = .ok old)
    (hnew : fs.find name (server.overrides.forFile importer).resolve.searchPath = .ok new)
    (hmoved : old ≠ new) (hlater : ∀ use ∈ later, use.files = fs)
    (hresult : (((Use.notify fs address :: later).foldl after server).transform fs code id).result =
      .ok (some text)) :
    ∃ (entry : Sheet) (graph : Table Text Sheet),
      text = moduleText
        (graph.entries.filter fun entry => entry.1 != fs.resolve (withoutQuery id)) entry ∧
      graph.get? (fs.resolve (withoutQuery id)) = some entry ∧
      Workspace.readSheet fs server.overrides (fs.resolve (withoutQuery id)) code = .ok entry ∧
      (∀ path had, graph.get? path = some had →
        ReadSince fs server.overrides (later ++ [.request fs code id]) path had ∨
          server.workspace.sheets.get? path = some had ∧ path ≠ fs.resolve (withoutQuery id) ∧
            ∀ use ∈ Use.notify fs address :: later, ¬use.Drops path) ∧
      ∀ now, graph.get? importer = some now →
        (∀ line' source', Workspace.readSheet fs server.overrides importer source' = .ok now →
          (line', .sheet name) ∈ Document.askings (server.overrides.forFile importer) source' →
            new ∈ graph.keys) ∧
        (now = sheet → old ∈ graph.keys) ∧
        (importer ≠ fs.resolve (withoutQuery id) →
          (∀ use ∈ Use.notify fs address :: later, use.target ≠ importer) → now = sheet) := by
  obtain ⟨-, hmodule⟩ := emitModule_of_transform hresult
  rw [overrides_afterAll] at hmodule
  obtain ⟨entry, graph, hentry, -, hgraph, rfl⟩ := Workspace.emitModule_eq_ok hmodule
  obtain ⟨hself, hothers⟩ := Workspace.steps_of_moduleGraph hentry hgraph
  refine ⟨entry, graph, rfl, hself, (Workspace.entrySheet_eq_readSheet hline code _).symm.trans hentry,
    ?_, ?_⟩
  · -- the later uses start from the server that has been told of the change
    intro path had hget
    have hoverrides : (server.after (.notify fs address)).overrides = server.overrides :=
      overrides_afterAll server [.notify fs address]
    rw [← hoverrides] at hline hentry hgraph ⊢
    rcases had_of_moduleGraph hline hlater hentry hgraph hget with ⟨hne, hnotified, hkept⟩ | hread
    · obtain ⟨hbefore, hnot⟩ := held_of_notified hnotified
      exact .inr ⟨hbefore, hne, List.forall_mem_cons.mpr ⟨hnot, hkept⟩⟩
    · exact .inl hread
  · intro now hnow
    obtain ⟨hhad, himports⟩ := hothers importer now hnow
    have hname := not_css_of_moved hold hnew hmoved
    refine ⟨?_, ?_, ?_⟩
    · intro line' source' hread' hasked'
      exact himports new (mem_imports_of_find hread' hasked' hnew hname)
    · rintro rfl
      exact himports old (mem_imports_of_find hread hasked hold hname)
    · -- the stylesheet is still held, and so nothing else can be had at its path
      intro hne huntouched
      have hsame := hhad hne ⟨1, none⟩
      rw [Workspace.lookup_of_get? (held_of_untouched hheld huntouched)] at hsame
      exact (Except.ok.inj hsame).symm

/-- A stylesheet that imports a name through another stylesheet. -/
def plainFiles : FileSystem where
  working := ['/']
  entries := .insert (.insert (.insert .empty "/main.terrace" (.file "@import p"))
    "/p.terrace" (.file "@import n")) "/n.terrace" (.file "a")

/-- The same files, and a partial that comes before the file for which the name stood. -/
def partialFiles : FileSystem := plainFiles.write "/_n.terrace" (.file "b")

/-- The module of the importing stylesheet itself is made of the partial. -/
theorem targets_of_importer :
    ∃ text entry, ∃ graph : Table Text Sheet,
      (([Use.notify partialFiles "/_n.terrace"].foldl after
          ((start none none).after (.request plainFiles "@import n" "/p.terrace"))).transform
        partialFiles "@import n" "/p.terrace").result = .ok (some text) ∧
      text = moduleText (graph.entries.filter fun entry => entry.1 != "/p.terrace") entry ∧
      ("/_n.terrace" : Text) ∈ graph.keys := by
  have hpath : plainFiles.resolve (withoutQuery "/p.terrace") = "/p.terrace" := by decide +kernel
  have hagain : partialFiles.resolve (withoutQuery "/p.terrace") = "/p.terrace" := by decide +kernel
  have hread : (Workspace.entrySheet plainFiles (start none none).overrides "@import n"
      (withoutQuery "/p.terrace")).map (fun _ => true) = .ok true := by
    decide +kernel
  have hasks : (Document.askings ((start none none).overrides.forFile "/p.terrace")
      "@import n").map Prod.snd = [.sheet "n"] := by
    decide +kernel
  have hrun : (([Use.notify partialFiles "/_n.terrace"].foldl after
      ((start none none).after (.request plainFiles "@import n" "/p.terrace"))).transform
        partialFiles "@import n" "/p.terrace").result.map Option.isSome = .ok true := by
    decide +kernel
  have hold : plainFiles.find "n" ((start none none).overrides.forFile "/p.terrace").resolve.searchPath =
      .ok "/n.terrace" := by
    decide +kernel
  have hnew : partialFiles.find "n"
      ((start none none).overrides.forFile "/p.terrace").resolve.searchPath = .ok "/_n.terrace" := by
    decide +kernel
  obtain ⟨sheet, hentry, -⟩ := map_eq_ok.mp hread
  obtain ⟨⟨line, ask⟩, hasked, rfl⟩ := List.mem_map.mp (hasks ▸ List.mem_cons_self)
  obtain ⟨answer, hanswer, hsome⟩ := map_eq_ok.mp hrun
  obtain ⟨text, rfl⟩ := Option.isSome_iff_exists.mp hsome
  have hheld : ((start none none).after
      (.request plainFiles "@import n" "/p.terrace")).workspace.sheets.get? "/p.terrace" =
        some sheet := by
    rw [workspace_after_request (by decide +kernel), ← hpath]
    exact Workspace.given_of_emitModule hentry
  have hread := (Workspace.entrySheet_eq_readSheet rfl "@import n" _).symm.trans hentry
  rw [hpath] at hread
  obtain ⟨entry, graph, htext, hself, hentered, -, htargets⟩ := targets_of_transform
    ((start none none).after (.request plainFiles "@import n" "/p.terrace")) rfl hheld hread hasked
    hold hnew (by decide) (List.forall_mem_nil _) hanswer
  rw [hagain] at htext hself hentered
  exact ⟨text, entry, graph, hanswer, htext, (htargets entry hself).1 line _ hentered hasked⟩

/-- The module of a stylesheet that reaches it is made as before, and not like that of a new
server. -/
theorem not_targets_of_others :
    partialFiles.find "n" ((start none none).overrides.forFile "/p.terrace").resolve.searchPath =
        .ok "/_n.terrace" ∧
      (([Use.notify partialFiles "/_n.terrace"].foldl after
          ((start none none).after (.request plainFiles "@import p" "/main.terrace"))).transform
        partialFiles "@import p" "/main.terrace").result =
      ((start none none).transform plainFiles "@import p" "/main.terrace").result ∧
      ((start none none).transform plainFiles "@import p" "/main.terrace").result ≠
      ((start none none).transform partialFiles "@import p" "/main.terrace").result := by
  decide +kernel

end Stylesheet.Server
