import Mathlib.Data.List.TakeWhile
import Stylesheet.Line.Layout
import Stylesheet.Proofs.Line.Written
import Stylesheet.Proofs.Text.Slices

/-!
# Lines and the physical lines they come from

- `PhysicalLine.occurs_content`: the text of a physical line stands behind its indentation.
- `Line.ComesFrom`: a line has the text, the offset and the number of a physical line of a source.
  `Line.comesFrom_of_ofSource` says that every line does.
- `Text.StandsIn`: a text is cut out of a physical line of a source, given by its number.
-/

namespace Stylesheet

namespace PhysicalLine

/-- An indentation has one unit for each of its characters. -/
theorem units_indentation (t : Text) :
    Text.units (ofText t).indentation = (ofText t).indentation.length := by
  show Text.units (t.takeWhile Indentation.isIndent) = (t.takeWhile Indentation.isIndent).length
  induction t with
  | nil => rfl
  | cons c t ih =>
    by_cases hc : Indentation.isIndent c = true
    · rw [List.takeWhile_cons_of_pos hc, Text.units_cons, ih, List.length_cons]
      have hwidth : Text.width c = 1 := by
        simp only [Indentation.isIndent, Bool.or_eq_true, beq_iff_eq] at hc
        rcases hc with rfl | rfl <;> rfl
      omega
    · rw [List.takeWhile_cons_of_neg hc]
      rfl

/-- The text of a physical line stands behind its indentation. -/
theorem occurs_content (t : Text) :
    Text.Occurs t (ofText t).content (ofText t).indentation.length := by
  obtain ⟨padding, hpadding⟩ : (ofText t).content <+: t.dropWhile Indentation.isIndent := by
    show Text.dropEndWhile _ _ <+: _
    unfold Text.dropEndWhile
    rw [← List.reverse_suffix, List.reverse_reverse]
    exact List.dropWhile_suffix _
  refine ⟨(ofText t).indentation, padding, ?_, ?_⟩
  · rw [List.append_assoc, hpadding]
    exact List.takeWhile_append_dropWhile.symm
  · rw [units_indentation]

end PhysicalLine

/-! ## Lines of a source -/

/-- The line is a physical line of a source without its indentation and its padding. -/
structure Line.ComesFrom (source : Text) (firstLine : Int) (filename : Option Text) (position : Nat)
    (raw : Text) (line : Line) : Prop where
  physical : (PhysicalLine.texts source)[position]? = some raw
  text : line.text = (PhysicalLine.ofText raw).content
  offset : line.offset = (PhysicalLine.ofText raw).indentation.length
  site : line.site = ⟨Number.plus firstLine position, filename⟩

namespace Line

variable {source : Text} {firstLine : Int} {filename : Option Text} {line : Line} {lines : List Line}

theorem exists_of_ofPhysical {layout : Layout} {position : Nat} {raws : List PhysicalLine}
    (h : ofPhysical filename firstLine layout position raws = .ok lines) :
    ∀ line ∈ lines, ∃ entry ∈ raws.zipIdx position,
      line.text = entry.1.content ∧ line.offset = entry.1.indentation.length ∧
        line.site = ⟨Number.plus firstLine entry.2, filename⟩ := by
  induction raws generalizing layout position lines with
  | nil =>
    cases h
    exact fun line hline => absurd hline List.not_mem_nil
  | cons raw rest ih =>
    rw [List.zipIdx_cons]
    rw [ofPhysical] at h
    split at h
    · intro line hline
      obtain ⟨entry, hentry, hfrom⟩ := ih h line hline
      exact ⟨entry, List.mem_cons_of_mem _ hentry, hfrom⟩
    · dsimp only at h
      split at h
      · cases h
      · obtain ⟨below, hbelow, rfl⟩ := map_eq_ok.mp h
        intro line hline
        rcases List.mem_cons.mp hline with rfl | hline
        · exact ⟨(raw, position), List.mem_cons_self, rfl, rfl, rfl⟩
        · obtain ⟨entry, hentry, hfrom⟩ := ih hbelow line hline
          exact ⟨entry, List.mem_cons_of_mem _ hentry, hfrom⟩

/-- Every line that is read from a source comes from one of its physical lines. -/
theorem comesFrom_of_ofSource (h : ofSource source firstLine filename = .ok lines)
    (hline : line ∈ lines) :
    ∃ position raw, line.ComesFrom source firstLine filename position raw := by
  obtain ⟨⟨physical, position⟩, hentry, htext, hoffset, hsite⟩ := exists_of_ofPhysical h line hline
  have hphysical : ((PhysicalLine.texts source).map PhysicalLine.ofText)[position]? = some physical :=
    List.mem_zipIdx_iff_getElem?.mp hentry
  rw [List.getElem?_map] at hphysical
  obtain ⟨raw, hraw, rfl⟩ := Option.map_eq_some_iff.mp hphysical
  exact ⟨position, raw, hraw, htext, hoffset, hsite⟩

/-- What stands in the text of a line stands in its physical line, behind the indentation. -/
theorem ComesFrom.occurs {position : Nat} {raw t : Text} {column : Int}
    (h : line.ComesFrom source firstLine filename position raw)
    (ht : Text.Occurs line.text t column) : Text.Occurs raw t (line.offset + column) := by
  have hline := PhysicalLine.occurs_content raw
  rw [← h.text, ← h.offset] at hline
  exact hline.trans ht

end Line

/-- In a source whose first line has the number `firstLine`, the physical line with the given number
holds the text from the given offset on. -/
def Text.StandsIn (t source : Text) (firstLine number offset : Int) : Prop :=
  ∃ (position : Nat) (raw : Text), (PhysicalLine.texts source)[position]? = some raw ∧
    number = Number.plus firstLine position ∧ 0 ≤ offset ∧
      slice raw offset.toNat (units t) = encode t

theorem Line.ComesFrom.standsIn {source raw t : Text} {firstLine column : Int}
    {filename : Option Text} {position : Nat} {line : Line}
    (h : line.ComesFrom source firstLine filename position raw)
    (ht : Text.Occurs line.text t column) :
    Text.StandsIn t source firstLine line.site.line (line.offset + column) := by
  have hraw := h.occurs ht
  refine ⟨position, raw, h.physical, ?_, hraw.nonneg, Text.slice_of_occurs hraw⟩
  rw [h.site]

end Stylesheet
