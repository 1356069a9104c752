import Stylesheet.Proofs.FileSystem.Paths
import Stylesheet.Proofs.Text.Slices

/-!
# What is found for a name

A name is looked for in one directory after the other. In each of them two files come into question,
which stand beside each other and differ in an underscore.

- `Path.resolve_partialName`: it does not matter whether a path gets its underscore before or after
  it is followed.
- `FileSystem.IsFile`, `sheetPath`, `partialPath`: the files that come into question;
  `beside_sheetPath` says where they stand.
- `FileSystem.Lacks`, `FileSystem.Offers`: what a directory has for a name.
- `FileSystem.find_eq_ok_iff`, `FileSystem.find_eq_error_iff`: the first directory that has
  something decides.
-/

namespace Stylesheet

open Text

namespace Path

variable {front last path : Text}

/-! ## Underscores -/

/-- The underscore comes in front of the last segment. -/
theorem partialName_append (hfront : ∀ c ∈ front.getLast?, c = '/') (hlast : '/' ∉ last) :
    partialName (front ++ last) = front ++ '_' :: last := by
  have hword : last.reverse.all (· != '/') = true := by
    rw [List.all_reverse, List.all_eq_true]
    exact fun c hc => bne_iff_ne.mpr fun heq => hlast (heq ▸ hc)
  have hslash : ∀ c ∈ front.reverse.head?, (c != '/') = false := by
    intro c hc
    rw [List.head?_reverse] at hc
    rw [hfront c hc]
    rfl
  obtain ⟨htake, hdrop⟩ := cut_behind hword hslash
  unfold partialName dropEndWhile
  rw [List.reverse_append, htake, hdrop, List.reverse_reverse, List.reverse_reverse]

/-- A path is cut in front of its last segment. -/
theorem exists_last (path : Text) :
    ∃ front last, path = front ++ last ∧ (∀ c ∈ front.getLast?, c = '/') ∧ '/' ∉ last := by
  refine ⟨(path.reverse.dropWhile (· != '/')).reverse, (path.reverse.takeWhile (· != '/')).reverse,
    ?_, ?_, ?_⟩
  · rw [← List.reverse_append, List.takeWhile_append_dropWhile, List.reverse_reverse]
  · intro c hc
    have hfirst := List.head?_dropWhile_not (· != '/') path.reverse
    rw [List.getLast?_reverse] at hc
    rw [Option.mem_def.mp hc] at hfirst
    simpa using hfirst
  · intro hmem
    exact absurd (List.mem_takeWhile_imp (List.mem_reverse.mp hmem)) (by decide)

/-! ## The last segment -/

/-- Wherever a path is followed from, its last segment stands behind a slash, and what is in front
of the slash does not depend on it. -/
theorem exists_follow (directory : Text) (hfront : ∀ c ∈ front.getLast?, c = '/') :
    ∃ before, ∀ last, '/' ∉ last → follow directory (front ++ last) = before ++ '/' :: last := by
  rcases List.eq_nil_or_concat' front with rfl | ⟨inner, c, rfl⟩
  · refine ⟨directory, fun last hlast => if_neg fun habsolute => hlast ?_⟩
    exact List.mem_of_head? (beq_iff_eq.mp habsolute)
  · have hc : c = '/' := hfront c (by simp)
    rw [hc]
    -- whether the path is absolute is told by what is in front of its last segment
    have hsame : ∀ last, isAbsolute (inner ++ ['/'] ++ last) = isAbsolute (inner ++ ['/']) := by
      intro last
      cases inner <;> rfl
    by_cases habsolute : isAbsolute (inner ++ ['/']) = true
    · refine ⟨inner, fun last _ => ?_⟩
      unfold follow
      rw [hsame, if_pos habsolute, List.append_assoc]
      rfl
    · refine ⟨directory ++ '/' :: inner, fun last _ => ?_⟩
      unfold follow
      rw [hsame, if_neg habsolute]
      simp

theorem exists_join (segments : List Text) :
    ∃ folder, ∀ last, '/' :: join ['/'] (segments ++ [last]) = folder ++ '/' :: last := by
  induction segments with
  | nil => exact ⟨[], fun last => by rw [List.nil_append, join_singleton, List.nil_append]⟩
  | cons first rest ih =>
    obtain ⟨folder, hfolder⟩ := ih
    refine ⟨'/' :: first ++ folder, fun last => ?_⟩
    rw [List.append_assoc, ← hfolder, List.cons_append,
      join_cons (List.append_ne_nil_of_right_ne_nil rest (List.cons_ne_nil last []))]
    simp

/-- Of the absolute path that a path leads to, all but a proper last segment is told by what is in
front of this segment. -/
theorem exists_resolve (working directory : Text) (hfront : ∀ c ∈ front.getLast?, c = '/') :
    ∃ folder, ∀ last, Proper last →
      resolve working [directory, front ++ last] = folder ++ '/' :: last := by
  obtain ⟨before, hbefore⟩ := exists_follow (follow working directory) hfront
  obtain ⟨folder, hfolder⟩ := exists_join ((pieces '/' before).foldl step []).reverse
  refine ⟨folder, fun last hlast => ?_⟩
  rw [← hfolder]
  show normalize (follow (follow working directory) (front ++ last)) = _
  unfold normalize
  rw [hbefore last hlast.slashless, pieces_append_cons, pieces_of_not_mem hlast.slashless,
    List.foldl_append, List.foldl_cons, List.foldl_nil, step_of_proper hlast, List.reverse_cons]

/-- The partial of a stylesheet stands beside it, with an underscore in front of its last
segment. -/
theorem beside_resolve (working directory : Text) (h : IsSheet path) :
    ∃ folder last, '/' ∉ last ∧ IsSheet last ∧
      resolve working [directory, path] = folder ++ '/' :: last ∧
      resolve working [directory, partialName path] = folder ++ '/' :: '_' :: last := by
  obtain ⟨stem, rfl⟩ := h
  obtain ⟨front, name, rfl, hfront, hname⟩ := exists_last stem
  have hsheet : IsSheet (name ++ sheetExtension) := List.suffix_append _ _
  have hslash : '/' ∉ name ++ sheetExtension :=
    List.not_mem_append hname slash_not_mem_sheetExtension
  have hhidden : IsSheet ('_' :: (name ++ sheetExtension)) := hsheet.trans (List.suffix_cons _ _)
  have hslash' : '/' ∉ '_' :: (name ++ sheetExtension) :=
    List.not_mem_cons_of_ne_of_not_mem (by decide) hslash
  obtain ⟨folder, hfolder⟩ := exists_resolve working directory hfront
  refine ⟨folder, name ++ sheetExtension, hslash, hsheet, ?_, ?_⟩
  · rw [List.append_assoc]
    exact hfolder _ (hsheet.proper hslash)
  · rw [List.append_assoc, partialName_append hfront hslash]
    exact hfolder _ (hhidden.proper hslash')

/-- A path of a stylesheet may get its underscore before it is followed or after. -/
theorem resolve_partialName (working directory : Text) (h : IsSheet path) :
    resolve working [directory, partialName path] =
      partialName (resolve working [directory, path]) := by
  obtain ⟨folder, last, hslash, -, hplain, hhidden⟩ := beside_resolve working directory h
  have hpartial : partialName (folder ++ ['/'] ++ last) = _ := partialName_append (by simp) hslash
  rw [List.append_assoc] at hpartial
  rw [hhidden, hplain]
  exact (hpartial.trans (List.append_assoc _ _ _)).symm

end Path

/-! ## Places -/

namespace FileSystem

variable {fs : FileSystem} {name path message directory : Text} {directories : List Text}

/-- At the path stands a file that can be read, and not a directory or a locked file. -/
def IsFile (fs : FileSystem) (path : Text) : Prop :=
  ∃ content, fs.entries.get? path = some (.file content)

/-- Only a file that is not locked can be read. -/
theorem isReadable_iff_isFile : fs.isReadable path = true ↔ fs.IsFile path := by
  rw [isReadable_iff]
  refine exists_congr fun content => ?_
  unfold read?
  cases fs.entries.get? path with
  | none => simp
  | some entry => cases entry <;> simp [Entry.content?]

/-- Where the stylesheet of a name stands in a directory. -/
def sheetPath (fs : FileSystem) (name directory : Text) : Text :=
  Path.resolve fs.working [directory, sheetName name]

/-- Where its partial does: beside it, with an underscore in front. -/
def partialPath (fs : FileSystem) (name directory : Text) : Text :=
  Path.partialName (fs.sheetPath name directory)

/-- The partial and the stylesheet of a name are siblings in one folder. -/
theorem beside_sheetPath (fs : FileSystem) (name directory : Text) :
    ∃ folder last, '/' ∉ last ∧ Path.IsSheet last ∧
      fs.sheetPath name directory = folder ++ '/' :: last ∧
      fs.partialPath name directory = folder ++ '/' :: '_' :: last := by
  obtain ⟨folder, last, hslash, hsheet, hplain, hpartial⟩ :=
    Path.beside_resolve fs.working directory (isSheet_sheetName name)
  rw [Path.resolve_partialName fs.working directory (isSheet_sheetName name)] at hpartial
  exact ⟨folder, last, hslash, hsheet, hplain, hpartial⟩

theorem candidates_cons (fs : FileSystem) (name directory : Text) (directories : List Text) :
    fs.candidates name (directory :: directories) =
      [fs.partialPath name directory, fs.sheetPath name directory] ++
        fs.candidates name directories := by
  unfold candidates partialPath sheetPath
  rw [List.flatMap_cons, ← Path.resolve_partialName fs.working directory (isSheet_sheetName name)]
  rfl

/-! ## Searching -/

/-- A directory has neither a partial nor a stylesheet of a name. -/
structure Lacks (fs : FileSystem) (name directory : Text) : Prop where
  partialPath : ¬fs.IsFile (fs.partialPath name directory)
  sheetPath : ¬fs.IsFile (fs.sheetPath name directory)

/-- The file that a directory has for a name: its partial, or without one the stylesheet itself. -/
inductive Offers (fs : FileSystem) (name directory : Text) : Text → Prop where
  | underscored (hpartial : fs.IsFile (fs.partialPath name directory)) :
    Offers fs name directory (fs.partialPath name directory)
  | plain (hpartial : ¬fs.IsFile (fs.partialPath name directory))
    (hsheet : fs.IsFile (fs.sheetPath name directory)) :
    Offers fs name directory (fs.sheetPath name directory)

/-- A directory lacks a file just if neither of the two can be read. -/
theorem lacks_iff :
    fs.Lacks name directory ↔
      [fs.partialPath name directory, fs.sheetPath name directory].find? fs.isReadable = none := by
  rw [List.find?_eq_none, List.forall_mem_cons, List.forall_mem_singleton, isReadable_iff_isFile,
    isReadable_iff_isFile]
  exact ⟨fun h => ⟨h.1, h.2⟩, fun h => ⟨h.1, h.2⟩⟩

/-- What it offers is the first of the two that can. -/
theorem offers_iff :
    fs.Offers name directory path ↔
      [fs.partialPath name directory, fs.sheetPath name directory].find? fs.isReadable = some path := by
  by_cases hpartial : fs.IsFile (fs.partialPath name directory)
  · rw [List.find?_cons_of_pos (isReadable_iff_isFile.mpr hpartial), Option.some.injEq]
    constructor
    · rintro (_ | ⟨hnone, -⟩)
      · rfl
      · exact absurd hpartial hnone
    · rintro rfl
      exact .underscored hpartial
  · rw [List.find?_cons_of_neg (mt isReadable_iff_isFile.mp hpartial), List.find?_singleton,
      Option.ite_none_right_eq_some, isReadable_iff_isFile, Option.some.injEq]
    constructor
    · rintro (hfile | ⟨-, hsheet⟩)
      · exact absurd hfile hpartial
      · exact ⟨hsheet, rfl⟩
    · rintro ⟨hsheet, rfl⟩
      exact .plain hpartial hsheet

/-- The first file of a search is that of the first directory, or else the first behind it. -/
theorem find?_candidates_cons :
    (fs.candidates name (directory :: directories)).find? fs.isReadable = some path ↔
      fs.Offers name directory path ∨ fs.Lacks name directory ∧
        (fs.candidates name directories).find? fs.isReadable = some path := by
  rw [candidates_cons, List.find?_append, Option.or_eq_some_iff, ← offers_iff, ← lacks_iff]

/-- A search comes to a file if the directories in front of one that offers it lack any. -/
theorem find?_candidates :
    (fs.candidates name directories).find? fs.isReadable = some path ↔
      ∃ front directory back, directories = front ++ directory :: back ∧
        (∀ earlier ∈ front, fs.Lacks name earlier) ∧ fs.Offers name directory path := by
  induction directories with
  | nil =>
    constructor
    · intro h
      cases h
    · rintro ⟨front, directory, back, hsplit, -⟩
      exact absurd hsplit.symm (List.append_ne_nil_of_right_ne_nil front (List.cons_ne_nil _ _))
  | cons first rest ih =>
    rw [find?_candidates_cons, ih]
    constructor
    · rintro (hoffers | ⟨hlacks, front, directory, back, rfl, hfront, hoffers⟩)
      · exact ⟨[], first, rest, rfl, fun _ h => absurd h List.not_mem_nil, hoffers⟩
      · exact ⟨first :: front, directory, back, rfl, List.forall_mem_cons.mpr ⟨hlacks, hfront⟩, hoffers⟩
    · rintro ⟨front, directory, back, hsplit, hfront, hoffers⟩
      cases front with
      | nil =>
        cases hsplit
        exact .inl hoffers
      | cons other front =>
        cases hsplit
        obtain ⟨hlacks, hfront⟩ := List.forall_mem_cons.mp hfront
        exact .inr ⟨hlacks, front, directory, back, rfl, hfront, hoffers⟩

/-- Nothing is found just if every directory lacks both files. -/
theorem find?_candidates_eq_none :
    (fs.candidates name directories).find? fs.isReadable = none ↔
      ∀ directory ∈ directories, fs.Lacks name directory := by
  induction directories with
  | nil => exact ⟨fun _ _ h => absurd h List.not_mem_nil, fun _ => rfl⟩
  | cons first rest ih =>
    rw [candidates_cons, List.find?_append, Option.or_eq_none_iff, ← lacks_iff, ih,
      List.forall_mem_cons]

theorem find_eq (hname : ¬cssExtension <:+ name) :
    fs.find name directories =
      ((fs.candidates name directories).find? fs.isReadable).elim
        (.error ("File to import not found or unreadable: " ++ name ++ ".")) .ok := by
  unfold find
  rw [if_neg (mt List.isSuffixOf_iff_suffix.mp hname)]
  cases (fs.candidates name directories).find? fs.isReadable <;> rfl

/-- A name stands for the file that the first directory with one offers. -/
theorem find_eq_ok_iff (hname : ¬cssExtension <:+ name) :
    fs.find name directories = .ok path ↔
      ∃ front directory back, directories = front ++ directory :: back ∧
        (∀ earlier ∈ front, fs.Lacks name earlier) ∧ fs.Offers name directory path := by
  rw [find_eq hname, ← find?_candidates]
  cases (fs.candidates name directories).find? fs.isReadable with
  | none => exact iff_of_false nofun nofun
  | some found => rw [Option.elim_some, Except.ok.injEq, Option.some.injEq]

/-- It stands for none if no directory has one. -/
theorem find_eq_error_iff (hname : ¬cssExtension <:+ name) :
    fs.find name directories = .error message ↔
      message = "File to import not found or unreadable: " ++ name ++ "." ∧
        ∀ directory ∈ directories, fs.Lacks name directory := by
  rw [find_eq hname, ← find?_candidates_eq_none]
  cases (fs.candidates name directories).find? fs.isReadable with
  | none => rw [Option.elim_none, Except.error.injEq, eq_comm, and_iff_left rfl]
  | some found => exact iff_of_false nofun fun h => nomatch h.2

/-- What is found is no plain style sheet. -/
theorem not_css_of_found (hname : ¬cssExtension <:+ name) (h : fs.find name directories = .ok path) :
    cssExtension.isSuffixOf path = false :=
  not_css_of_find h (Bool.eq_false_iff.mpr (mt List.isSuffixOf_iff_suffix.mp hname))

end FileSystem

end Stylesheet
