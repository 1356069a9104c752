import Stylesheet.FileSystem.Search
import Stylesheet.Proofs.Text.Pieces

/-!
# Absolute paths and the paths of stylesheets

- `Path.Proper`: a segment of an absolute path that has been normalized. `normalize_normalize` and
  `resolve_resolve` say that an absolute path leads to itself.
- `Path.IsSheet`: a path that ends in the extension of a stylesheet. No step to an absolute path
  takes the extension away (`IsSheet.resolve`).
- `FileSystem.Serves`, `serves_of_find`: a stylesheet that is found can be read, at an absolute
  path.
-/

namespace Stylesheet

namespace Path

/-! ## Absolute paths -/

/-- A segment that stands in an absolute path as it is. -/
structure Proper (segment : Text) : Prop where
  slashless : '/' ∉ segment
  ne_nil : segment ≠ []
  ne_dot : segment ≠ ['.']
  ne_dots : segment ≠ ['.', '.']

theorem step_of_proper {segment : Text} (h : Proper segment) (directory : List Text) :
    step directory segment = segment :: directory := by
  have hkept : ¬(segment = [] ∨ segment = ['.']) := by
    rintro (heq | heq)
    · exact h.ne_nil heq
    · exact h.ne_dot heq
  unfold step
  rw [if_neg hkept, if_neg h.ne_dots]

/-- Every segment of a directory that is reached is proper. -/
theorem proper_of_mem_foldl {segments directory : List Text}
    (hsegments : ∀ segment ∈ segments, '/' ∉ segment)
    (hdirectory : ∀ segment ∈ directory, Proper segment) :
    ∀ segment ∈ segments.foldl step directory, Proper segment := by
  induction segments generalizing directory with
  | nil => exact hdirectory
  | cons first rest ih =>
    rw [List.foldl_cons]
    refine ih (fun segment hmem => hsegments segment (List.mem_cons_of_mem _ hmem)) ?_
    intro segment hmem
    unfold step at hmem
    split at hmem
    · exact hdirectory segment hmem
    · rename_i hkept
      split at hmem
      · exact hdirectory segment (List.mem_of_mem_tail hmem)
      · rename_i hdots
        rcases List.mem_cons.mp hmem with rfl | hmem
        · exact ⟨hsegments _ List.mem_cons_self, fun heq => hkept (.inl heq),
            fun heq => hkept (.inr heq), hdots⟩
        · exact hdirectory segment hmem

/-- Proper segments lead down, one directory each. -/
theorem foldl_step_of_proper {segments : List Text} (h : ∀ segment ∈ segments, Proper segment)
    (directory : List Text) : segments.foldl step directory = segments.reverse ++ directory := by
  induction segments generalizing directory with
  | nil => rfl
  | cons first rest ih =>
    rw [List.foldl_cons, step_of_proper (h first List.mem_cons_self),
      ih fun segment hmem => h segment (List.mem_cons_of_mem _ hmem), List.reverse_cons,
      List.append_assoc]
    rfl

/-- Normalizing proper segments keeps them. -/
theorem normalize_join {segments : List Text} (h : ∀ segment ∈ segments, Proper segment) :
    normalize ('/' :: Text.join ['/'] segments) = '/' :: Text.join ['/'] segments := by
  have hpieces : (Text.pieces '/' ('/' :: Text.join ['/'] segments)).foldl step [] =
      segments.reverse := by
    rw [Text.pieces, if_pos rfl, List.foldl_cons]
    show (Text.pieces '/' (Text.join ['/'] segments)).foldl step [] = _
    cases segments with
    | nil => rfl
    | cons first rest =>
      rw [Text.pieces_join (List.cons_ne_nil _ _) fun segment hmem => (h segment hmem).slashless,
        foldl_step_of_proper h, List.append_nil]
  unfold normalize
  rw [hpieces, List.reverse_reverse]

/-- An absolute path without dots and empty segments stays as it is. -/
theorem normalize_normalize (path : Text) : normalize (normalize path) = normalize path := by
  refine normalize_join fun segment hmem => ?_
  refine proper_of_mem_foldl (fun piece hpiece => Text.not_mem_of_mem_pieces hpiece)
    (fun piece hpiece => absurd hpiece List.not_mem_nil) segment (List.mem_reverse.mp hmem)

/-- An absolute path that has been reached leads to itself, from wherever. -/
theorem resolve_resolve (working other : Text) (paths : List Text) :
    resolve working [resolve other paths] = resolve other paths :=
  normalize_normalize _

/-! ## Paths of stylesheets -/

/-- The path ends in the extension of a stylesheet. -/
def IsSheet (path : Text) : Prop := sheetExtension <:+ path

theorem slash_not_mem_sheetExtension : '/' ∉ sheetExtension := by decide

/-- A segment with the extension of a stylesheet is longer than a dot or two. -/
theorem IsSheet.proper {segment : Text} (h : IsSheet segment) (hslash : '/' ∉ segment) :
    Proper segment := by
  have hlength : 8 ≤ segment.length := h.length_le
  refine ⟨hslash, ?_, ?_, ?_⟩ <;> rintro rfl <;> exact absurd hlength (by decide)

theorem IsSheet.normalize {path : Text} (h : IsSheet path) : IsSheet (normalize path) := by
  obtain ⟨front, rfl⟩ := h
  obtain ⟨texts, last, hpieces⟩ := Text.pieces_append_eq slash_not_mem_sheetExtension front
  -- the last step keeps the last piece
  have hlast : Proper (last ++ sheetExtension) := by
    have hmem : last ++ sheetExtension ∈ Text.pieces '/' (front ++ sheetExtension) := by
      rw [hpieces]
      exact List.mem_append_right _ List.mem_cons_self
    exact IsSheet.proper (List.suffix_append _ _) (Text.not_mem_of_mem_pieces hmem)
  unfold Path.normalize
  rw [hpieces, List.foldl_append, List.foldl_cons, List.foldl_nil, step_of_proper hlast,
    List.reverse_cons]
  have hjoin := Text.suffix_join ['/'] (last ++ sheetExtension) (texts.foldl step []).reverse
  exact ((List.suffix_append last sheetExtension).trans hjoin).trans (List.suffix_cons _ _)

theorem IsSheet.follow {path : Text} (h : IsSheet path) (directory : Text) :
    IsSheet (follow directory path) := by
  unfold Path.follow
  split
  · exact h
  · exact h.trans ((List.suffix_cons '/' path).trans (List.suffix_append directory _))

/-- The extension of a path that is followed last stays at the end. -/
theorem IsSheet.resolve {path : Text} (h : IsSheet path) (working : Text) (paths : List Text) :
    IsSheet (resolve working (paths ++ [path])) := by
  unfold Path.resolve
  rw [List.foldl_append]
  exact (h.follow _).normalize

/-- The partial of a stylesheet has its extension. -/
theorem IsSheet.partialName {path : Text} (h : IsSheet path) : IsSheet (partialName path) := by
  obtain ⟨front, rfl⟩ := h
  have hlast : ∀ c ∈ sheetExtension.reverse, (c != '/') = true := by
    intro c hc
    refine bne_iff_ne.mpr ?_
    rintro rfl
    exact slash_not_mem_sheetExtension (List.mem_reverse.mp hc)
  -- the underscore is put behind the last slash, and so in front of the extension
  unfold Path.partialName
  rw [List.reverse_append, List.takeWhile_append_of_pos hlast, List.reverse_append,
    List.reverse_reverse]
  exact (List.suffix_append _ _).trans ((List.suffix_cons _ _).trans (List.suffix_append _ _))

end Path

/-! ## Imported stylesheets -/

namespace FileSystem

variable {fs fs' : FileSystem} {name path : Text} {directories : List Text}

@[simp] theorem resolve_resolve (fs : FileSystem) (path : Text) :
    fs.resolve (fs.resolve path) = fs.resolve path :=
  Path.resolve_resolve _ _ _

theorem isSheet_sheetName (name : Text) : Path.IsSheet (sheetName name) := by
  unfold sheetName
  split
  · rename_i h
    exact List.isSuffixOf_iff_suffix.mp h
  · exact List.suffix_append _ _

/-- Every candidate is an absolute path with the extension of a stylesheet. -/
theorem isSheet_of_mem_candidates (h : path ∈ fs.candidates name directories) :
    Path.IsSheet path ∧ fs.resolve path = path := by
  obtain ⟨directory, -, h⟩ := List.mem_flatMap.mp h
  obtain ⟨last, hlast, rfl⟩ := List.mem_map.mp h
  refine ⟨?_, Path.resolve_resolve _ _ _⟩
  have hsheet := isSheet_sheetName name
  rcases List.mem_cons.mp hlast with rfl | hlast
  · exact hsheet.partialName.resolve fs.working [directory]
  · rw [List.mem_singleton.mp hlast]
    exact hsheet.resolve fs.working [directory]

/-- At the path, which is absolute, stands a stylesheet that can be read. -/
structure Serves (fs : FileSystem) (path : Text) : Prop where
  readable : fs.isReadable path = true
  isSheet : Path.IsSheet path
  absolute : fs.resolve path = path

/-- A stylesheet is found at an absolute path where it can be read. -/
theorem serves_of_find (h : fs.find name directories = .ok path)
    (hcss : cssExtension.isSuffixOf path = false) : fs.Serves path := by
  unfold find at h
  split at h
  · -- a name that ends like CSS is taken as it is
    rename_i hname
    cases h
    rw [hname] at hcss
    cases hcss
  · split at h
    · rename_i hfound
      cases h
      obtain ⟨hsheet, habsolute⟩ := isSheet_of_mem_candidates (List.mem_of_find?_eq_some hfound)
      exact ⟨List.find?_some hfound, hsheet, habsolute⟩
    · cases h

/-- What is found for a name that is no plain style sheet is none either. -/
theorem not_css_of_find (h : fs.find name directories = .ok path)
    (hname : cssExtension.isSuffixOf name = false) : cssExtension.isSuffixOf path = false := by
  unfold find at h
  rw [if_neg (Bool.eq_false_iff.mp hname)] at h
  split at h
  · rename_i hfound
    cases h
    obtain ⟨hsheet, -⟩ := isSheet_of_mem_candidates (List.mem_of_find?_eq_some hfound)
    refine Bool.eq_false_iff.mpr fun hcss => ?_
    have hsuffix : cssExtension <:+ sheetExtension :=
      List.suffix_of_suffix_length_le (List.isSuffixOf_iff_suffix.mp hcss) hsheet (by decide)
    exact absurd hsuffix (by decide)
  · cases h

/-- What is found depends only on the working directory and on which files can be read. -/
theorem find_congr (hworking : fs.working = fs'.working)
    (hreadable : ∀ path, fs.isReadable path = fs'.isReadable path) (name : Text)
    (directories : List Text) : fs.find name directories = fs'.find name directories := by
  unfold find candidates
  rw [hworking, funext hreadable]

end FileSystem

end Stylesheet
