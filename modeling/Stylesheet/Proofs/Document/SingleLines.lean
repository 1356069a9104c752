import Stylesheet.Proofs.Document.Siblings
import Stylesheet.Proofs.Line.Rendering

/-!
# Documents of one line

- `Line.ofSource_legible`: a legible text is the only line of its source.
- `Document.yields_parseWith_single`: what a document of one line is read as is what its line is.
-/

namespace Stylesheet

open Parsing Text

variable {σ E : Type}

/-- A legible text is the only line of its source. -/
theorem Line.ofSource_legible {t : Text} (h : PlainLine.Legible t) (hmark : t.head? ≠ some '\uFEFF')
    (firstLine : Int) (filename : Option Text) :
    ofSource t firstLine filename =
      .ok [{ text := t, index := Number.plus firstLine 0, filename := filename }] := by
  have htexts : PhysicalLine.ofSource t = [⟨[], t⟩] := by
    unfold PhysicalLine.ofSource PhysicalLine.texts
    rw [if_neg hmark, unifyBreaks_of_not_mem h.unbroken.2, pieces_of_not_mem h.unbroken.1]
    have hcut : PhysicalLine.ofText ([] ++ t ++ []) = ⟨[], t⟩ :=
      PhysicalLine.ofText_append (fun _ h => absurd h List.not_mem_nil) h
        (fun _ h => absurd h List.not_mem_nil)
    rw [List.nil_append, List.append_nil] at hcut
    rw [List.map_singleton, hcut]
  unfold ofSource
  rw [htexts]
  obtain ⟨c, rest, rfl⟩ := List.exists_cons_of_ne_nil h.ne_nil
  rfl

theorem Document.yields_parseWith_single {services : Services σ E} {overrides : Overrides}
    {source : Text} {line : Line} {nodes : List (Node E)} {state next : σ}
    (hlines : Line.ofSource source overrides.resolve.firstLine overrides.resolve.filename = .ok [line]) :
    Yields (parseWith services overrides source) state ⟨nodes, overrides.resolve⟩ next ↔
      Yields (Assembly.line services overrides.resolve.searchPath true {} line) state
        ⟨nodes.reverse, none⟩ next := by
  have hforest : Assembly.forest services overrides.resolve.searchPath true {} [line] =
      Assembly.line services overrides.resolve.searchPath true {} line := by
    rw [Assembly.forest]
    simp only [Assembly.forest, bind_pure]
  have hnest : Line.nest [line] 0 = .ok ([line], 1) := rfl
  constructor
  · intro h
    obtain ⟨lines, trees, after, siblings, hlines', hnest', hyields, hfinish, -⟩ := steps_of_parseWith h
    cases hlines.symm.trans hlines'
    cases hnest.symm.trans hnest'
    obtain ⟨hpending, hplaced⟩ := Siblings.finish_eq_ok.mp hfinish
    rw [hforest] at hyields
    obtain ⟨placed, pending⟩ := siblings
    cases hpending
    have hplaced : placed.reverse = nodes := hplaced
    rwa [← hplaced, List.reverse_reverse]
  · intro h
    rw [← hforest] at h
    exact parseWith_of_steps hlines hnest h (Siblings.finish_eq_ok.mpr ⟨rfl, List.reverse_reverse nodes⟩)

end Stylesheet
