import Stylesheet.Proofs.Server.Invalidation
import Stylesheet.Proofs.Workspace.Provenance

/-!
# Uses of a server while files come and go

A server is asked for modules and told of changes, whatever happens to the files in between, and
whether it can make the modules or not.

- `Server.Use`, `Server.after`: a use of a server, with the files as they are at that moment, and
  the server that it leaves behind.
- `Server.Use.operation?`, `afterAll_eq`: what uses are to the workspace behind the server.
- `inStep_afterAll`, `held_afterAll`: so the workspace stays in step, and what it holds was held
  before or has been read. `held_of_untouched`: what no use is about stays held.
- `Server.Course`: uses each of which is allowed at its point. `Course.preserves`: what they
  preserve.
-/

namespace Stylesheet.Server

variable {style : Option Text} {loadPaths : Option (List Text)} {server final : Server}
  {path : Text} {sheet : Sheet}

/-- A use of a server, with the files as they are at that moment. -/
inductive Use where
  /-- The module for an address is asked for, with the text found there. -/
  | request (fs : FileSystem) (code id : Text)
  /-- The server is told that the file at an address has changed. -/
  | notify (fs : FileSystem) (address : Text)

/-- The files at the moment of a use. -/
def Use.files : Use → FileSystem
  | .request fs _ _ | .notify fs _ => fs

/-- The address that a use is about. -/
def Use.address : Use → Text
  | .request _ _ address | .notify _ address => address

/-- The path of the file that a use is about. -/
def Use.target (use : Use) : Text := use.files.resolve (withoutQuery use.address)

/-- The server that a use leaves behind. -/
def after (server : Server) : Use → Server
  | .request fs code id => { server with workspace := (server.transform fs code id).workspace }
  | .notify fs address => (server.update fs address ([] : List Text) fun _ => []).2

variable {uses : List Use} {use : Use}

/-- A use that is about no stylesheet changes nothing. -/
theorem after_of_not_isSheet (h : isSheet (withoutQuery use.address) = false) :
    server.after use = server := by
  unfold after
  cases use with
  | request fs code id =>
    simp only [Use.address] at h
    simp only [transform_of_not_isSheet h]
  | notify fs address =>
    simp only [Use.address] at h
    simp only [update_of_not_isSheet h]

/-- A request for a stylesheet makes its module. -/
theorem workspace_after_request {fs : FileSystem} {code id : Text}
    (h : isSheet (withoutQuery id) = true) :
    (server.after (.request fs code id)).workspace =
      (server.workspace.emitModule fs server.overrides code (withoutQuery id)).workspace := by
  unfold after
  dsimp only
  rw [transform_of_isSheet h]

/-- A notification about a stylesheet drops it. -/
theorem workspace_after_notify {fs : FileSystem} {address : Text}
    (h : isSheet (withoutQuery address) = true) :
    (server.after (.notify fs address)).workspace =
      server.workspace.forget fs (some (withoutQuery address)) := by
  unfold after
  dsimp only
  rw [update_of_isSheet h]

/-! ## Operations on the workspace -/

/-- What a use of a server is to its workspace. An address of no stylesheet is nothing to it. -/
def Use.operation? (overrides : Overrides) : Use → Option Workspace.Operation
  | .request fs code id =>
    if isSheet (withoutQuery id) then some (.emitModule fs overrides code (withoutQuery id)) else none
  | .notify fs address =>
    if isSheet (withoutQuery address) then some (.forget fs (some (withoutQuery address))) else none

theorem after_eq (server : Server) (use : Use) :
    server.after use =
      { server with
        workspace :=
          (use.operation? server.overrides).toList.foldl Workspace.after server.workspace } := by
  cases use with
  | request fs code id =>
    unfold after Use.operation?
    dsimp only
    cases hsheet : isSheet (withoutQuery id) with
    | true => rw [transform_of_isSheet hsheet]; rfl
    | false => rw [transform_of_not_isSheet hsheet]; rfl
  | notify fs address =>
    unfold after Use.operation?
    dsimp only
    cases hsheet : isSheet (withoutQuery address) with
    | true => rw [update_of_isSheet hsheet]; rfl
    | false => rw [update_of_not_isSheet hsheet]; rfl

/-- Uses of a server are operations on its workspace. -/
theorem afterAll_eq (server : Server) (uses : List Use) :
    uses.foldl after server =
      { server with
        workspace :=
          (uses.filterMap (Use.operation? server.overrides)).foldl Workspace.after
            server.workspace } := by
  induction uses generalizing server with
  | nil => rfl
  | cons use uses ih =>
    rw [List.foldl_cons, ih, after_eq]
    dsimp only
    cases hoperation : use.operation? server.overrides with
    | none => rw [List.filterMap_cons_none hoperation]; rfl
    | some operation => rw [List.filterMap_cons_some hoperation]; rfl

/-- The settings of a server never change. -/
theorem overrides_afterAll (server : Server) (uses : List Use) :
    (uses.foldl after server).overrides = server.overrides := by
  rw [afterAll_eq]

/-- However a server has been used, what it holds is in step with the imports that are noted. -/
theorem inStep_afterAll (uses : List Use) :
    (uses.foldl after (start style loadPaths)).workspace.InStep := by
  rw [afterAll_eq]
  exact Workspace.inStep_empty.afterAll _

theorem inStep_after (h : server.workspace.InStep) (use : Use) :
    (server.after use).workspace.InStep := by
  rw [after_eq]
  exact h.afterAll _

/-! ## What is held -/

/-- The stylesheet at a path is what a use has read there. -/
def Use.Gives (overrides : Overrides) (use : Use) (path : Text) (sheet : Sheet) : Prop :=
  ∃ operation, use.operation? overrides = some operation ∧ operation.Gives path sheet

/-- Whether a use makes the server drop the stylesheet at a path. -/
def Use.Drops : Use → Text → Prop
  | .request _ _ _, _ => False
  | .notify fs address, path =>
    isSheet (withoutQuery address) = true ∧ fs.resolve (withoutQuery address) = path

theorem Use.Drops.operation (h : use.Drops path) (overrides : Overrides) :
    ∃ operation, use.operation? overrides = some operation ∧ operation.Drops path := by
  cases use with
  | request fs code id => exact h.elim
  | notify fs address =>
    obtain ⟨hsheet, hpath⟩ := h
    refine ⟨.forget fs (some (withoutQuery address)), if_pos hsheet, ?_⟩
    cases hchanged : withoutQuery address with
    | nil => trivial
    | cons c rest =>
      rw [hchanged] at hpath
      exact hpath

/-- What a server holds after some uses was held before and has not been dropped since, or is what
one of them has read. -/
theorem held_afterAll (h : (uses.foldl after server).workspace.sheets.get? path = some sheet) :
    (server.workspace.sheets.get? path = some sheet ∧ ∀ use ∈ uses, ¬use.Drops path) ∨
      ∃ use ∈ uses, use.Gives server.overrides path sheet := by
  rw [afterAll_eq] at h
  rcases Workspace.held_afterAll h with ⟨hheld, hkept⟩ | ⟨operation, hoperation, hgives⟩
  · refine .inl ⟨hheld, fun use hmem hdrops => ?_⟩
    obtain ⟨operation, hoperation, hdrops⟩ := hdrops.operation server.overrides
    exact hkept operation (List.mem_filterMap.mpr ⟨use, hmem, hoperation⟩) hdrops
  · obtain ⟨use, hmem, huse⟩ := List.mem_filterMap.mp hoperation
    exact .inr ⟨use, hmem, operation, huse, hgives⟩

/-- However a server has been used, what it holds was read by a use of it. -/
theorem gives_afterAll
    (h : (uses.foldl after (start style loadPaths)).workspace.sheets.get? path = some sheet) :
    ∃ use ∈ uses, use.Gives (start style loadPaths).overrides path sheet := by
  rcases held_afterAll h with ⟨hheld, -⟩ | hgives
  · cases hheld
  · exact hgives

/-- What a server holds stays held after a use that is about another file. -/
theorem held_of_ne (h : server.workspace.sheets.get? path = some sheet) (hne : use.target ≠ path) :
    (server.after use).workspace.sheets.get? path = some sheet := by
  cases hsheet : isSheet (withoutQuery use.address) with
  | false =>
    rw [after_of_not_isSheet hsheet]
    exact h
  | true =>
    cases use with
    | request fs code id =>
      simp only [Use.address] at hsheet
      rw [workspace_after_request hsheet]
      exact Workspace.held_of_emitModule h (Ne.symm hne)
    | notify fs address =>
      simp only [Use.address, Use.target, Use.files] at hsheet hne
      have hnonempty : withoutQuery address ≠ [] := by
        intro hempty
        rw [hempty] at hsheet
        cases hsheet
      rw [workspace_after_notify hsheet, Workspace.get?_sheets_forget hnonempty, if_neg hne]
      exact h

/-- Uses that are about other paths leave what is held at a path. -/
theorem held_of_untouched (h : server.workspace.sheets.get? path = some sheet)
    (huntouched : ∀ use ∈ uses, use.target ≠ path) :
    (uses.foldl after server).workspace.sheets.get? path = some sheet := by
  induction uses generalizing server with
  | nil => exact h
  | cons use uses ih =>
    obtain ⟨hne, hrest⟩ := List.forall_mem_cons.mp huntouched
    exact ih (held_of_ne h hne) hrest

/-! ## Courses of uses -/

/-- A course of uses, each of which the server at that point allows. -/
inductive Course (allows : Server → Use → Prop) : Server → List Use → Server → Prop where
  | done {server : Server} : Course allows server [] server
  | step {server final : Server} {use : Use} {uses : List Use} (hallows : allows server use)
    (hrest : Course allows (server.after use) uses final) :
    Course allows server (use :: uses) final

/-- What every allowed use preserves, a course preserves. -/
theorem Course.preserves {allows : Server → Use → Prop} {P : Server → Prop}
    (h : Course allows server uses final)
    (hafter : ∀ server use, allows server use → P server → P (server.after use)) (hstart : P server) :
    P final := by
  induction h with
  | done => exact hstart
  | step hallows _ ih => exact ih (hafter _ _ hallows hstart)

end Stylesheet.Server
