import Stylesheet.Proofs.Json.RoundTrip
import Stylesheet.Workspace.Module

/-!
# The values of documents

No record in the value of a document gives a field twice, so the value can be read from its text.

- `Json.unambiguous_object`: a record some of whose fields are left out.
- `Node.nodup_names`: the fields of every kind of construct, next to those that all nodes have.
- `Document.unambiguous_toJson`: all of a document, for any way to write expressions.
- `Document.decode?_sheetJson`: a stylesheet is read from its text.
-/

namespace Stylesheet

/-! ## Values -/

namespace Json

/-- An object whose names differ is unambiguous if its values are, also where some of them are
missing. -/
theorem unambiguous_object {fields : List (Text × Option Json)} (hnames : (fields.map Prod.fst).Nodup)
    (hfields : ∀ field ∈ fields, ∀ value ∈ field.2, Unambiguous value) :
    (object fields).Unambiguous := by
  refine .record ?_ fun field hfield => ?_
  · -- the names of the fields that are left are some of all names, in the same order
    refine hnames.sublist ?_
    induction fields with
    | nil => exact .refl []
    | cons field fields ih =>
      obtain ⟨name, value⟩ := field
      have hrest := ih (List.nodup_cons.mp hnames).2 (List.forall_mem_cons.mp hfields).2
      cases value with
      | none => exact hrest.cons name
      | some value => exact hrest.cons_cons name
  · obtain ⟨⟨name, value⟩, hmem, hvalue⟩ := List.mem_filterMap.mp hfield
    cases value with
    | none => cases hvalue
    | some value =>
      cases hvalue
      exact hfields _ hmem value rfl

theorem unambiguous_texts (ts : List Text) : (texts ts).Unambiguous := by
  refine .list fun item hitem => ?_
  obtain ⟨t, -, rfl⟩ := List.mem_map.mp hitem
  exact .text t

variable {α : Type} {encode : α → Json}

theorem unambiguous_map (h : ∀ a, (encode a).Unambiguous) (as : List α) :
    (Json.list (as.map encode)).Unambiguous := by
  refine .list fun item hitem => ?_
  obtain ⟨a, -, rfl⟩ := List.mem_map.mp hitem
  exact h a

theorem unambiguous_nullable (h : ∀ a, (encode a).Unambiguous) (a? : Option α) :
    (nullable encode a?).Unambiguous := by
  cases a? with
  | none => exact .null
  | some a => exact h a

end Json

open Json

/-! ## Expressions and settings -/

theorem Expression.unambiguous_toJson (e : Expression) : e.toJson.Unambiguous := by
  refine unambiguous_object (of_decide_eq_true rfl) ?_
  simp [Unambiguous.text, Unambiguous.number]

theorem Options.unambiguous_toJson (options : Options) : options.toJson.Unambiguous := by
  refine unambiguous_object (of_decide_eq_true rfl) ?_
  simp [Unambiguous.text, Unambiguous.number, unambiguous_texts]

/-! ## Nodes -/

variable {E : Type} {encode : E → Json}

theorem AttributeValue.unambiguous_toJson (h : ∀ e, (encode e).Unambiguous) (value : AttributeValue E) :
    (value.toJson encode).Unambiguous := by
  cases value with
  | literal text => exact .text text
  | expression e => exact h e

theorem Parameter.unambiguous_toJson (h : ∀ e, (encode e).Unambiguous) (parameter : Parameter E) :
    (parameter.toJson encode).Unambiguous := by
  refine .record (of_decide_eq_true rfl) ?_
  simp [Unambiguous.text, unambiguous_nullable h]

/-- The fields of a construct are unambiguous if its expressions are written so. -/
theorem Construct.unambiguous_fields (h : ∀ e, (encode e).Unambiguous) {otherwise : Json}
    (hotherwise : otherwise.Unambiguous) (construct : Construct E) :
    ∀ field ∈ construct.fields encode otherwise, field.2.Unambiguous := by
  cases construct <;>
    simp [fields, h, hotherwise, Unambiguous.text, Unambiguous.bool, unambiguous_texts, unambiguous_map,
      unambiguous_nullable, AttributeValue.unambiguous_toJson, Parameter.unambiguous_toJson]

namespace Node

/-- The fields of every construct have names of their own, next to those that all nodes have. -/
theorem nodup_names (construct : Construct E) (site : Site) (children : List Json) (otherwise : Json) :
    ((("type", .text construct.kind) ::
      (construct.fields encode otherwise ++ commonFields site children) : List (Text × Json)).map
        Prod.fst).Nodup := by
  obtain ⟨line, filename⟩ := site
  -- in each case the names are fixed, whatever the values
  cases construct <;> cases filename <;> exact of_decide_eq_true rfl

/-- So are the fields that every node has. -/
theorem unambiguous_commonFields {children : List Json} (h : ∀ child ∈ children, child.Unambiguous)
    (site : Site) : ∀ field ∈ commonFields site children, field.2.Unambiguous := by
  obtain ⟨line, filename⟩ := site
  have hchildren : (Json.list children).Unambiguous := .list h
  cases filename <;> simp [commonFields, hchildren, Unambiguous.number, Unambiguous.text]

/-- The value of a node is unambiguous if those of its expressions and of the nodes in it are. -/
theorem unambiguous_record (h : ∀ e, (encode e).Unambiguous) (construct : Construct E) (site : Site)
    {children : List Json} {otherwise : Json} (hchildren : ∀ child ∈ children, child.Unambiguous)
    (hotherwise : otherwise.Unambiguous) :
    (record encode construct site children otherwise).Unambiguous := by
  refine .record (nodup_names construct site children otherwise) (List.forall_mem_cons.mpr ⟨.text _, ?_⟩)
  exact List.forall_mem_append.mpr
    ⟨construct.unambiguous_fields h hotherwise, unambiguous_commonFields hchildren site⟩

mutual

/-- The value of a node is unambiguous if its expressions are written so. -/
theorem unambiguous_toJson (h : ∀ e, (encode e).Unambiguous) : ∀ node : Node E,
    (toJson encode node).Unambiguous
  | ⟨construct, site, children, branches⟩ =>
    unambiguous_record h construct site (unambiguous_forestJson h children)
      (unambiguous_chainJson h branches)

theorem unambiguous_forestJson (h : ∀ e, (encode e).Unambiguous) : ∀ nodes : List (Node E),
    ∀ j ∈ forestJson encode nodes, j.Unambiguous
  | [] => fun _ hj => absurd hj List.not_mem_nil
  | node :: nodes =>
    List.forall_mem_cons.mpr ⟨unambiguous_toJson h node, unambiguous_forestJson h nodes⟩

/-- A chain of branches is a value within a value, each of them unambiguous. -/
theorem unambiguous_chainJson (h : ∀ e, (encode e).Unambiguous) : ∀ branches : List (Node E),
    (chainJson encode branches).Unambiguous
  | [] => .null
  | ⟨construct, site, children, _⟩ :: branches =>
    unambiguous_record h construct site (unambiguous_forestJson h children)
      (unambiguous_chainJson h branches)

end

end Node

/-! ## Documents -/

namespace Document

theorem unambiguous_toJson (h : ∀ e, (encode e).Unambiguous) (document : Document E) :
    (document.toJson encode).Unambiguous := by
  have hchildren : (Json.list (Node.forestJson encode document.children)).Unambiguous :=
    .list (Node.unambiguous_forestJson h document.children)
  refine .record (of_decide_eq_true rfl) ?_
  simp [hchildren, Unambiguous.text, Options.unambiguous_toJson]

/-- The value of a stylesheet is unambiguous. -/
theorem unambiguous_sheetJson (sheet : Sheet) : sheet.sheetJson.Unambiguous :=
  unambiguous_toJson Expression.unambiguous_toJson sheet

/-- A stylesheet is read from its text. -/
theorem decode?_sheetJson (sheet : Sheet) :
    Json.decode? (Json.render sheet.sheetJson) = some sheet.sheetJson.rounded :=
  decode?_render (unambiguous_sheetJson sheet)

end Document

end Stylesheet
