import Stylesheet.Proofs.Construct.Columns
import Stylesheet.Proofs.Document.Kinds
import Stylesheet.Proofs.Document.Runs
import Stylesheet.Proofs.Document.SingleLines

/-!
# Imports of plain style sheets

An import is cut at every comma before any of its entries is looked at. Addresses and quoted names
are put out as they are if no comma stands in them.

- `Import.Plain`, `Import.written`: an address or a quoted name, and a line that imports several.
- `Import.entries_written`: the entries of such a line.
- `Import.plain_exact`: such a line passes its entries on just if there is no comma in any of them.
-/

namespace Stylesheet

open Parsing Text

variable {σ E : Type}

namespace Import

/-! ## How plain imports are written -/

/-- An address or a quoted name, on one line. -/
inductive Plain : Text → Prop where
  | address {t : Text} (hbracket : '(' ∉ t ∧ ')' ∉ t) (hbreak : '\n' ∉ t ∧ '\r' ∉ t) :
    Plain ("url(" ++ t ++ [')'])
  | quoted {t : Text} (hquote : '"' ∉ t) (hbreak : '\n' ∉ t ∧ '\r' ∉ t) : Plain ('"' :: (t ++ ['"']))

/-- An import of several entries. -/
def written (entries : List Text) : Text := "@import " ++ join ", " entries

variable {entry : Text} {entries : List Text}

theorem head?_written (entries : List Text) : (written entries).head? = some '@' := rfl

theorem Plain.ne_nil (h : Plain entry) : entry ≠ [] := by
  cases h <;> simp

theorem Plain.startsBlank (h : Plain entry) : startsBlank entry = false := by
  cases h <;> rfl

theorem Plain.getLast? (h : Plain entry) : entry.getLast? = some ')' ∨ entry.getLast? = some '"' := by
  cases h with
  | address => exact .inl List.getLast?_concat
  | quoted => exact .inr (List.getLast?_concat (l := '"' :: _))

theorem Plain.unbroken (h : Plain entry) : '\n' ∉ entry ∧ '\r' ∉ entry := by
  cases h with
  | address _ hbreak | quoted _ hbreak => simpa using hbreak

/-- An address or a quoted name has no outer blanks. -/
theorem Plain.trim_eq (h : Plain entry) : trim entry = entry := by
  unfold trim
  rw [trimStart_eq_self h.startsBlank]
  refine trimEnd_eq_self fun c hc => ?_
  rcases h.getLast? with hlast | hlast
  · cases hlast.symm.trans hc
    decide
  · cases hlast.symm.trans hc
    decide

/-- An address or a quoted name is put out as it is. -/
theorem Plain.entry_eq (h : Plain entry) : Import.entry entry = .css (css entry) := by
  cases h with
  | address => rfl
  | quoted => rfl

/-! ## Cutting them apart -/

/-- The pieces of such a line that are no first ones start with a blank. -/
theorem join_blank (first : Text) (rest : List Text) :
    join ", " (first :: rest) = join [','] (first :: rest.map (' ' :: ·)) :=
  join_cons_map ',' [' '] first rest

theorem comma_mem_iff {first : Text} {rest : List Text} :
    (∀ text ∈ first :: rest.map (' ' :: ·), ',' ∉ text) ↔ ∀ entry ∈ first :: rest, ',' ∉ entry := by
  simp

/-- Entries without a comma are cut apart where they were joined. -/
theorem entries_written (hplain : ∀ entry ∈ entries, Plain entry) (hne : entries ≠ [])
    (hcomma : ∀ entry ∈ entries, ',' ∉ entry) :
    Import.entries (join ", " entries) = entries.map fun entry => .css (css entry) := by
  obtain ⟨first, rest, rfl⟩ := List.exists_cons_of_ne_nil hne
  obtain ⟨hfirst, hrest⟩ := List.forall_mem_cons.mp hplain
  unfold Import.entries
  rw [join_blank, pieces_join (List.cons_ne_nil _ _) (comma_mem_iff.mpr hcomma), List.map_cons,
    List.map_cons, List.map_map, hfirst.trim_eq, hfirst.entry_eq]
  refine congrArg _ (List.map_congr_left fun entry hentry => ?_)
  have htrim : trim (' ' :: entry) = entry :=
    (congrArg trimEnd (List.dropWhile_cons_of_pos (by decide))).trans (hrest entry hentry).trim_eq
  show Import.entry (trim (' ' :: entry)) = _
  rw [htrim, (hrest entry hentry).entry_eq]

/-- There are as many entries as were written just if no comma stands in one of them. -/
theorem length_entries_written (hne : entries ≠ []) :
    (Import.entries (join ", " entries)).length = entries.length ↔ ∀ entry ∈ entries, ',' ∉ entry := by
  obtain ⟨first, rest, rfl⟩ := List.exists_cons_of_ne_nil hne
  unfold Import.entries
  rw [List.length_map, join_blank, ← comma_mem_iff, ← length_pieces_join (List.cons_ne_nil _ _),
    List.length_cons, List.length_cons, List.length_map]

/-! ## Reading the line -/

variable {services : Services σ E} {directories : List Text} {line : Line} {siblings : Siblings E}
  {state next : σ}

/-- The value of the line starts with its first entry. -/
theorem startsBlank_join (hplain : ∀ entry ∈ entries, Plain entry) (hne : entries ≠ []) :
    Text.startsBlank (join ", " entries) = false ∧ join ", " entries ≠ [] := by
  obtain ⟨first, rest, rfl⟩ := List.exists_cons_of_ne_nil hne
  have hfirst := hplain first List.mem_cons_self
  obtain ⟨c, others, rfl⟩ := List.exists_cons_of_ne_nil hfirst.ne_nil
  have hblank : isBlank c = false := hfirst.startsBlank
  cases rest with
  | nil => exact ⟨hblank, List.cons_ne_nil _ _⟩
  | cons second rest =>
    rw [join_cons (List.cons_ne_nil second rest)]
    exact ⟨hblank, List.cons_ne_nil _ _⟩

/-- The line is read as an import of what stands behind its keyword. -/
theorem ofLine_written (hplain : ∀ entry ∈ entries, Plain entry) (hne : entries ≠ [])
    (htext : line.text = written entries) (hchildren : line.children = []) (afterConditional : Bool) :
    Reading.ofLine afterConditional line = .ok (.imports (Import.entries (join ", " entries))) := by
  obtain ⟨hblank, hvalue⟩ := startsBlank_join hplain hne
  have hdirective : Directive.ofText line.text = ⟨Keyword.importing.text, some (join ", " entries), 8⟩ := by
    rw [htext]
    exact @Directive.ofText_written _ .importing [' '] (by decide) (by decide) hblank
  have hmark : line.text.head? = some Mark.directive.char := by rw [htext, head?_written]; rfl
  rw [Reading.ofLine_of_mark hmark]
  show Reading.ofDirective afterConditional line = _
  unfold Reading.ofDirective
  rw [hdirective]
  dsimp only
  rw [Keyword.ofText?_text]
  show Reading.ofImport line _ = _
  obtain ⟨c, rest, hjoin⟩ := List.exists_cons_of_ne_nil hvalue
  unfold Reading.ofImport Line.forbidNesting
  rw [hchildren, hjoin]
  rfl

/-- Entries that are put out as they are need no service. -/
theorem yields_css (texts : List Text) :
    Yields ((texts.map ImportEntry.css).mapM (Reading.resolveEntry services directories line)) state
      (texts.map .cssImport) state := by
  induction texts with
  | nil => exact yields_pure.mpr ⟨rfl, rfl⟩
  | cons text texts ih =>
    exact yields_mapM_cons.mpr ⟨_, state, _, yields_pure.mpr ⟨rfl, rfl⟩, ih, rfl⟩

/-! ## What it puts into a document -/

/-- The nodes of imports that are put out as they are. -/
def nodes (E : Type) (site : Site) (entries : List Text) : List (Node E) :=
  entries.map fun entry => ⟨.cssImport ("@import " ++ entry), site, [], []⟩

/-- Addresses and quoted names give their nodes without a call. -/
theorem yields_resolve_written (hplain : ∀ entry ∈ entries, Plain entry) (hne : entries ≠ [])
    (hcomma : ∀ entry ∈ entries, ',' ∉ entry) :
    Yields (Reading.resolve services directories line (.imports (Import.entries (join ", " entries))))
      state (.nodes (nodes E line.site entries)) state := by
  have hentries : Import.entries (join ", " entries) = (entries.map css).map ImportEntry.css := by
    rw [entries_written hplain hne hcomma, List.map_map]
    rfl
  rw [hentries]
  refine yields_bind.mpr ⟨_, state, yields_css _, yields_pure.mpr ⟨?_, rfl⟩⟩
  unfold nodes
  rw [List.map_map, List.map_map]
  rfl

/-- Every entry gives one node. -/
theorem length_of_resolve_imports {read : List ImportEntry} {outcome : Outcome E}
    (h : Yields (Reading.resolve services directories line (.imports read)) state outcome next) :
    ∃ all, outcome = .nodes all ∧ all.length = read.length := by
  obtain ⟨constructs, _, hconstructs, h⟩ := yields_bind.mp h
  obtain ⟨rfl, -⟩ := yields_pure.mp h
  obtain ⟨hlength, -⟩ := forall_of_yields_mapM (P := fun _ => True) hconstructs fun _ _ _ _ _ => trivial
  exact ⟨_, rfl, (List.length_map _).trans hlength⟩

/-- At the root, where no rule goes on, the line puts these nodes behind the others, and no service
is called, just if there is no comma in any of the entries. -/
theorem yields_line_written (hplain : ∀ entry ∈ entries, Plain entry) (hne : entries ≠ [])
    (htext : line.text = written entries) (hchildren : line.children = [])
    (hpending : siblings.pending = none) :
    Yields (Assembly.line services directories true siblings line) state
        { siblings with placed := (nodes E line.site entries).reverse ++ siblings.placed } state ↔
      ∀ entry ∈ entries, ',' ∉ entry := by
  have hread := ofLine_written hplain hne htext hchildren siblings.afterConditional
  constructor
  · intro h
    obtain ⟨reading, outcome, completed, middle, hreading, hresolve, hcompletes, hadd⟩ :=
      Assembly.line_steps h
    cases hread.symm.trans hreading
    obtain ⟨all, rfl, hlength⟩ := length_of_resolve_imports hresolve
    cases hcompletes
    have hplaced := congrArg Siblings.placed (Siblings.add_nodes hadd).2
    have hall : nodes E line.site entries = all :=
      List.reverse_injective (List.append_cancel_right hplaced)
    -- a comma would have made more nodes than there are entries
    rw [← length_entries_written hne, ← hlength, ← hall]
    exact List.length_map _
  · intro hcomma
    refine Assembly.line_of_steps hread (yields_resolve_written hplain hne hcomma) .nodes ?_
    refine bind_eq_ok.mpr ⟨(), ?_, Siblings.placeAll_of_mayStand fun _ _ _ => rfl⟩
    unfold Siblings.closed
    rw [hpending]

/-! ## The line alone -/

theorem not_mem_written {c : Char} (hplain : ∀ entry ∈ entries, c ∉ entry)
    (hc : c ∉ "@import , ".toList) : c ∉ written entries := by
  intro hmem
  rcases List.mem_append.mp hmem with hmem | hmem
  · exact hc (List.mem_append_left _ hmem)
  · rcases mem_join hmem with hmem | ⟨entry, hentry, hmem⟩
    · exact hc (List.mem_append_right "@import ".toList hmem)
    · exact hplain entry hentry hmem

/-- Nothing is cut off the line where it is the whole source. -/
theorem legible_written (hplain : ∀ entry ∈ entries, Plain entry) (hne : entries ≠ []) :
    PlainLine.Legible (written entries) where
  ne_nil := List.cons_ne_nil _ _
  unbroken :=
    ⟨not_mem_written (fun entry hentry => (hplain entry hentry).unbroken.1) (by decide),
      not_mem_written (fun entry hentry => (hplain entry hentry).unbroken.2) (by decide)⟩
  head := by
    rw [head?_written]
    decide
  last := by
    obtain ⟨front, last, rfl⟩ := (List.eq_nil_or_concat entries).resolve_left hne
    rw [List.concat_eq_append] at hplain ⊢
    have hlast := (hplain last (List.mem_append_right front List.mem_cons_self)).getLast?
    -- the line ends in its last entry, and that in a bracket or a quote
    obtain ⟨middle, hmiddle⟩ : last <:+ written (front ++ [last]) :=
      (suffix_join ", " last front).trans (List.suffix_append _ _)
    rw [← hmiddle, List.getLast?_append]
    rcases hlast with hlast | hlast
    · rw [hlast, Option.some_or]
      decide
    · rw [hlast, Option.some_or]
      decide

end Import

/-! ## Lines and documents -/

/-- Imports of addresses and quoted names pass through untouched just if there is no comma in any of
them. Then a line of them at the root gives one node for each, in order and with its text as it is,
and no service is called; so does a document of this line. A comma inside an address or a quoted
name cuts it. -/
theorem Import.plain_exact {entries : List Text} (hne : entries ≠ [])
    (hplain : ∀ entry ∈ entries, Plain entry) :
    (∀ (services : Services σ E) directories (siblings : Siblings E) (line : Line) state calls,
      line.text = written entries → line.children = [] → siblings.pending = none →
      (Yields (Assembly.line services.recorded directories true siblings line) (state, calls)
          { siblings with placed := (nodes E line.site entries).reverse ++ siblings.placed }
          (state, calls) ↔
        ∀ entry ∈ entries, ',' ∉ entry)) ∧
    ∀ (services : Services σ E) overrides state,
      Yields (Document.parseWith services.recorded overrides (written entries)) (state, [])
          ⟨nodes E ⟨Number.plus overrides.resolve.firstLine 0, overrides.filename⟩ entries,
            overrides.resolve⟩ (state, []) ↔
        ∀ entry ∈ entries, ',' ∉ entry := by
  constructor
  · intro services directories siblings line state calls htext hchildren hpending
    exact yields_line_written hplain hne htext hchildren hpending
  · -- the source is this one line, so its nodes are those of the document
    intro services overrides state
    have hmark : (written entries).head? ≠ some '\uFEFF' := by
      rw [head?_written]
      decide
    have hlines := Line.ofSource_legible (legible_written hplain hne) hmark
      overrides.resolve.firstLine overrides.resolve.filename
    rw [Document.yields_parseWith_single hlines,
      ← List.append_nil (nodes E ⟨Number.plus overrides.resolve.firstLine 0, overrides.filename⟩
        entries).reverse]
    exact yields_line_written hplain hne rfl rfl rfl

/-- An import of a quoted name and an address, alone and behind a rule. -/
theorem Import.plain_of_two :
    Yields (Document.parseWith (Services.standard ⟨['/'], .empty⟩ : Services Unit Expression).recorded
        { line := some 4 } (written ["\"print.css\"", "url(http://a.b/c d?e=f)"])) ((), [])
      ⟨nodes Expression ⟨4, none⟩ ["\"print.css\"", "url(http://a.b/c d?e=f)"],
        Overrides.resolve { line := some 4 }⟩ ((), []) ∧
    Yields (Assembly.line (Services.standard ⟨['/'], .empty⟩ : Services Unit Expression).recorded [] true
        { placed := [⟨.rule [['a']], ⟨1, none⟩, [], []⟩] }
        ⟨"@import \"print.css\", url(http://a.b/c d?e=f)", 0, 2, 0, none, []⟩) ((), [])
      { placed := [⟨.cssImport "@import url(http://a.b/c d?e=f)", ⟨2, none⟩, [], []⟩,
          ⟨.cssImport "@import \"print.css\"", ⟨2, none⟩, [], []⟩,
          ⟨.rule [['a']], ⟨1, none⟩, [], []⟩] } ((), []) := by
  have hplain : ∀ entry ∈ ["\"print.css\"".toList, "url(http://a.b/c d?e=f)".toList], Plain entry := by
    refine List.forall_mem_cons.mpr ⟨?_, List.forall_mem_singleton.mpr ?_⟩
    · exact @Plain.quoted "print.css" (by decide) (by decide)
    · exact @Plain.address "http://a.b/c d?e=f" (by decide) (by decide)
  have hcomma : ∀ entry ∈ ["\"print.css\"".toList, "url(http://a.b/c d?e=f)".toList], ',' ∉ entry := by
    decide
  obtain ⟨hline, hdocument⟩ := plain_exact (List.cons_ne_nil _ _) hplain
  exact ⟨(hdocument _ _ ()).mpr hcomma, (hline _ [] _ _ () [] rfl rfl rfl).mpr hcomma⟩

/-- A comma inside an address cuts it: what is behind the comma is looked for as a stylesheet. -/
theorem Import.address_cut_at_comma :
    Plain "url(a,b)" ∧
      ¬Yields (Document.parseWith (Services.standard ⟨['/'], .empty⟩ : Services Unit Expression).recorded
          {} (written ["url(a,b)"])) ((), [])
        ⟨nodes Expression ⟨1, none⟩ ["url(a,b)"], Overrides.resolve {}⟩ ((), []) ∧
      ((Document.parseWith (Services.standard ⟨['/'], .empty⟩ : Services Unit Expression).recorded
          {} (written ["url(a,b)"])).outcome ((), [])).2.2.map Services.Call.refusal? =
        [some "File to import not found or unreadable: b).".toList] := by
  have hcalls : ((Document.parseWith (Services.standard ⟨['/'], .empty⟩ : Services Unit Expression).recorded
      {} (written ["url(a,b)"])).outcome ((), [])).2.2.map Services.Call.refusal? =
        [some "File to import not found or unreadable: b).".toList] := by
    decide +kernel
  refine ⟨@Plain.address "a,b" (by decide) (by decide), fun h => ?_, hcalls⟩
  have hnone := (congrArg (fun result => result.2.2.map Services.Call.refusal?) h).symm.trans hcalls
  cases hnone

end Stylesheet
