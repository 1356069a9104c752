import Stylesheet.Proofs.Document.Kinds
import Stylesheet.Proofs.Document.Relocation
import Stylesheet.Proofs.Document.Runs
import Stylesheet.Proofs.Document.Siblings
import Stylesheet.Proofs.Text.Slices

/-!
# Attributes in both forms

An attribute is written with a colon in front of its name, or else as an inline attribute: with the
colon behind the name, or with an equals sign alone. Both lines say the same.

- `Attribute.Written`: the parts of the line of an attribute; `Written.computedLine` and
  `Written.literalLine` put them together in either form.
- `ofLine_computedLine`, `ofLine_literalLine`: what such a line is read as.
- `Attribute.forms_agree`: the lines of both forms say the same attribute.
-/

namespace Stylesheet

open Parsing Text

namespace Attribute

/-! ## How the line of an attribute is written -/

/-- The parts of the line of an attribute. -/
structure Written where
  name : Text
  /-- What stands in front of an equals sign. -/
  beforeSign : Text
  /-- What stands in front of the value. -/
  beforeValue : Text
  value : Text

namespace Written

/-- The line of an attribute whose value is an expression. -/
def computedLine (parts : Written) : AttributeForm → Text
  | .prefixed => ':' :: (parts.name ++ (parts.beforeSign ++ '=' :: (parts.beforeValue ++ parts.value)))
  | .inline => parts.name ++ (parts.beforeSign ++ '=' :: (parts.beforeValue ++ parts.value))

/-- The line of an attribute whose value is text. -/
def literalLine (parts : Written) : AttributeForm → Text
  | .prefixed => ':' :: (parts.name ++ (parts.beforeValue ++ parts.value))
  | .inline => parts.name ++ ':' :: (parts.beforeValue ++ parts.value)

/-- What is asked of the parts. -/
structure Sound (parts : Written) : Prop where
  name : parts.name.all isNameChar = true
  head : ∃ c, parts.name.head? = some c ∧ c ∉ ['!', '/', '@', '\\', '+']
  beforeSign : parts.beforeSign.all isBlank = true
  beforeValue : parts.beforeValue.all isBlank = true
  beforeValue_ne_nil : parts.beforeValue ≠ []
  value : startsBlank parts.value = false

end Written

variable {parts : Written} {gap t : Text} {c : Char} {line : Line} {afterConditional : Bool}

/-! ## The characters of a line -/

theorem isNameChar_of_isBlank (h : isBlank c = true) : isNameChar c = false := by
  simp [isNameChar, h]

/-- The name ends where blanks or a sign follow. -/
theorem ends_name (hgap : gap.all isBlank = true) (hc : isNameChar c = false) :
    ∀ d ∈ (gap ++ c :: t).head?, isNameChar d = false := by
  intro d hd
  cases gap with
  | nil =>
    cases hd
    exact hc
  | cons first gap =>
    cases hd
    exact isNameChar_of_isBlank (List.all_eq_true.mp hgap _ List.mem_cons_self)

namespace Written.Sound

/-- The name starts with a character that is no mark. -/
theorem name_eq_cons (h : parts.Sound) :
    ∃ c rest, parts.name = c :: rest ∧ isNameChar c = true ∧ c ∉ ['!', '/', '@', '\\', '+'] := by
  obtain ⟨c, hc, hmark⟩ := h.head
  obtain ⟨rest, hname⟩ := List.head?_eq_some_iff.mp hc
  exact ⟨c, rest, hname, List.all_eq_true.mp h.name c (hname ▸ List.mem_cons_self), hmark⟩

theorem name_ne_nil (h : parts.Sound) : parts.name ≠ [] := by
  obtain ⟨c, rest, hname, -⟩ := h.name_eq_cons
  exact hname ▸ List.cons_ne_nil c rest

/-- Behind the sign a word ends. -/
theorem endsWord (h : parts.Sound) : Text.endsWord (parts.beforeValue ++ parts.value) = true := by
  obtain ⟨c, rest, hgap⟩ := List.exists_cons_of_ne_nil h.beforeValue_ne_nil
  rw [hgap]
  exact List.all_eq_true.mp h.beforeValue c (hgap ▸ List.mem_cons_self)

theorem trimStart_value (h : parts.Sound) :
    trimStart (parts.beforeValue ++ parts.value) = parts.value :=
  trimStart_padded h.beforeValue h.value

/-- The equals sign and what follows it, behind the blanks in front. -/
theorem assigned?_eq (h : parts.Sound) :
    assigned? (trimStart (parts.beforeSign ++ '=' :: (parts.beforeValue ++ parts.value))) =
      some parts.value := by
  rw [trimStart_padded h.beforeSign rfl]
  show (if _ then _ else _) = _
  rw [if_pos h.endsWord, h.trimStart_value]

/-- A line that starts with the name has no mark. -/
theorem ofLine_eq (h : parts.Sound) (htext : line.text = parts.name ++ t) (afterConditional : Bool) :
    Reading.ofLine afterConditional line = Reading.ofPlain line := by
  obtain ⟨c, rest, hname, hc, hmark⟩ := h.name_eq_cons
  -- a mark is one of the characters that are excluded, or else it is the colon, which is in no name
  have hnone : Mark.ofChar? c = none := by
    refine List.find?_eq_none.mpr fun mark _ hchar => ?_
    obtain rfl : mark.char = c := beq_iff_eq.mp hchar
    have hmarks : isNameChar mark.char = false ∨ mark.char ∈ ['!', '/', '@', '\\', '+'] := by
      cases mark <;> decide
    rcases hmarks with hsign | hother
    · rw [hsign] at hc
      cases hc
    · exact hmark hother
  unfold Reading.ofLine
  rw [htext, hname, List.cons_append, List.head?_cons, Option.bind_some, hnone]

/-- A colon in front of the name marks the line of an attribute. -/
theorem ofLine_colon (h : parts.Sound) (htext : line.text = ':' :: (parts.name ++ t))
    (afterConditional : Bool) :
    Reading.ofLine afterConditional line =
      Reading.ofConstruct? line (.invalidAttribute line.text) (prefixed? line.text) := by
  obtain ⟨c, rest, hname, hc, -⟩ := h.name_eq_cons
  have hsecond : secondUnit line.text ≠ some ':' := by
    rw [htext, hname]
    show some c ≠ some ':'
    rintro ⟨⟩
    exact absurd hc (by decide)
  have hmark : line.text.head? = some Mark.attribute.char := by
    rw [htext]
    rfl
  rw [Reading.ofLine_of_mark hmark]
  show Reading.ofAttribute line = _
  rw [Reading.ofAttribute, if_neg hsecond]

end Written.Sound

/-! ## How a line is read -/

/-- An equals sign that is a word of its own makes the value an expression. -/
theorem prefixed?_computedLine (h : parts.Sound) :
    prefixed? (parts.computedLine .prefixed) =
      some (computed (parts.computedLine .prefixed) parts.name parts.value .prefixed) := by
  obtain ⟨hname, hrest⟩ := cut_behind h.name
    (ends_name (t := parts.beforeValue ++ parts.value) h.beforeSign (by decide : isNameChar '=' = false))
  simp only [Written.computedLine, prefixed?]
  rw [hname, hrest, if_neg (by simpa using h.name_ne_nil), h.assigned?_eq]

/-- The inline form with an equals sign is read as it is written. -/
theorem inline?_computedLine (h : parts.Sound) :
    inline? (parts.computedLine .inline) =
      some (computed (parts.computedLine .inline) parts.name parts.value .inline) := by
  obtain ⟨hname, hrest⟩ := cut_behind h.name
    (ends_name (t := parts.beforeValue ++ parts.value) h.beforeSign (by decide : isNameChar '=' = false))
  unfold Written.computedLine inline?
  dsimp only
  rw [hname, hrest, if_neg (by simpa using h.name_ne_nil), h.assigned?_eq]

/-- Without such a sign the value is text. -/
theorem prefixed?_literalLine (h : parts.Sound)
    (hvalue : ∀ rest, parts.value = '=' :: rest → endsWord rest = false) :
    prefixed? (parts.literalLine .prefixed) = some (literal parts.name parts.value .prefixed) := by
  obtain ⟨c, gap, hgap⟩ := List.exists_cons_of_ne_nil h.beforeValue_ne_nil
  have hends : ∀ d ∈ (parts.beforeValue ++ parts.value).head?, isNameChar d = false := by
    rw [hgap]
    rintro d ⟨⟩
    exact isNameChar_of_isBlank (List.all_eq_true.mp h.beforeValue _ (hgap ▸ List.mem_cons_self))
  obtain ⟨hname, hrest⟩ := cut_behind h.name hends
  -- an equals sign at the head of the value goes on as part of a longer word
  have hassigned : assigned? parts.value = none := by
    unfold assigned?
    split
    · rename_i rest heq
      rw [hvalue rest heq]
      rfl
    · rfl
  simp only [Written.literalLine, prefixed?]
  rw [hname, hrest, if_neg (by simpa using h.name_ne_nil), h.trimStart_value, hassigned]
  exact if_pos h.endsWord

/-- So is the one with a colon, which stands right behind the name. -/
theorem inline?_literalLine (h : parts.Sound) :
    inline? (parts.literalLine .inline) = some (literal parts.name parts.value .inline) := by
  have hends : ∀ d ∈ (':' :: (parts.beforeValue ++ parts.value)).head?, isNameChar d = false := by
    rintro d ⟨⟩
    rfl
  obtain ⟨hname, hrest⟩ := cut_behind h.name hends
  unfold Written.literalLine inline?
  dsimp only
  rw [hname, hrest, if_neg (by simpa using h.name_ne_nil)]
  show (if _ then _ else _) = _
  rw [if_pos h.endsWord, h.trimStart_value]

/-! ### Inline attributes are no rules -/

theorem all_isHeadChar (h : t.all isNameChar = true) : t.all isHeadChar = true := by
  rw [List.all_eq_true] at h ⊢
  intro c hc
  have hname := h c hc
  simp only [isNameChar, Bool.not_eq_true', Bool.or_eq_false_iff] at hname
  simp [isHeadChar, hname]

theorem isHeadChar_of_isBlank (h : isBlank c = true) : isHeadChar c = false := by
  simp [isHeadChar, h]

/-- A line that has a sign behind its name and the blanks there, if the sign is a word of its own,
is taken for an attribute. -/
theorem isInline_of_startsWithSign (h : parts.Sound) (ht : ∀ d ∈ t.head?, isHeadChar d = false)
    (hsign : startsWithSign (trimStart t) = true) : isInline (parts.name ++ t) = true := by
  obtain ⟨hword, hrest⟩ := cut_behind (all_isHeadChar h.name) ht
  unfold isInline
  dsimp only
  rw [hword, hrest, hsign]
  simp [h.name_ne_nil]

/-- The inline form is taken for an attribute, whether blanks stand in front of the sign or not. -/
theorem isInline_computedLine (h : parts.Sound) : isInline (parts.computedLine .inline) = true := by
  show isInline (parts.name ++ (parts.beforeSign ++ '=' :: (parts.beforeValue ++ parts.value))) = true
  have hsign : startsWithSign (trimStart (parts.beforeSign ++ '=' :: (parts.beforeValue ++ parts.value))) =
      true := by
    rw [trimStart_padded h.beforeSign rfl]
    exact (Bool.and_eq_true _ _).mpr ⟨rfl, h.endsWord⟩
  cases hgap : parts.beforeSign with
  | cons first gap =>
    rw [hgap] at hsign
    refine isInline_of_startsWithSign h ?_ hsign
    rintro d ⟨⟩
    exact isHeadChar_of_isBlank (List.all_eq_true.mp h.beforeSign _ (hgap ▸ List.mem_cons_self))
  | nil =>
    -- without blanks in front the sign is the end of the first word
    obtain ⟨first, rest, hvalue⟩ := List.exists_cons_of_ne_nil h.beforeValue_ne_nil
    have hhead : (parts.name ++ ['=']).all isHeadChar = true := by
      rw [List.all_append, all_isHeadChar h.name]
      rfl
    have hends : ∀ d ∈ (parts.beforeValue ++ parts.value).head?, isHeadChar d = false := by
      rw [hvalue]
      rintro d ⟨⟩
      exact isHeadChar_of_isBlank (List.all_eq_true.mp h.beforeValue _ (hvalue ▸ List.mem_cons_self))
    obtain ⟨hword, hrest⟩ := cut_behind hhead hends
    rw [List.append_assoc] at hword hrest
    have hlength : 2 ≤ (parts.name ++ ['=']).length := by
      rw [List.length_append]
      exact Nat.succ_le_succ (List.length_pos_iff.mpr h.name_ne_nil)
    show isInline (parts.name ++ (['='] ++ (parts.beforeValue ++ parts.value))) = true
    unfold isInline
    dsimp only
    rw [hword, hrest, h.endsWord, decide_eq_true hlength, List.getLast?_append]
    simp

theorem isInline_literalLine (h : parts.Sound) : isInline (parts.literalLine .inline) = true := by
  refine isInline_of_startsWithSign h ?_ ((Bool.and_eq_true _ _).mpr ⟨rfl, h.endsWord⟩)
  rintro d ⟨⟩
  decide

/-! ### Lines -/

/-- The attribute that is read from a line. -/
theorem ofLine_computedLine (h : parts.Sound) (form : AttributeForm)
    (htext : line.text = parts.computedLine form) (afterConditional : Bool) :
    Reading.ofLine afterConditional line =
      .ok (.construct (computed line.text parts.name parts.value form)) := by
  cases form with
  | prefixed =>
    rw [h.ofLine_colon htext, htext, prefixed?_computedLine h]
    rfl
  | inline =>
    rw [h.ofLine_eq htext, Reading.ofPlain, htext, if_pos (isInline_computedLine h),
      inline?_computedLine h]
    rfl

/-- An attribute whose value is text is read as written, unless an equals sign would make it an
expression. -/
theorem ofLine_literalLine (h : parts.Sound) (form : AttributeForm)
    (hvalue : form = .prefixed → ∀ rest, parts.value = '=' :: rest → endsWord rest = false)
    (htext : line.text = parts.literalLine form) (afterConditional : Bool) :
    Reading.ofLine afterConditional line =
      .ok (.construct (literal parts.name parts.value form)) := by
  cases form with
  | prefixed =>
    rw [h.ofLine_colon htext, htext, prefixed?_literalLine h (hvalue rfl)]
    rfl
  | inline =>
    rw [h.ofLine_eq htext, Reading.ofPlain, htext, if_pos (isInline_literalLine h), inline?_literalLine h]
    rfl

/-! ## What a line says -/

section

variable {σ E : Type} {directories : List Text} {form : AttributeForm}

/-- The node of the attribute. -/
def Written.node (parts : Written) (form : AttributeForm) (value : AttributeValue E) (site : Site) :
    Node E :=
  ⟨.attribute parts.name value form, site, [], []⟩

/-- The column of the expression where the line is that of an inline attribute. -/
def Written.column (parts : Written) : Int :=
  units (parts.computedLine .inline) - units (visible parts.value)

/-- The attribute, once a service has read its value from a column of the line on. -/
def Written.computing (parts : Written) (services : Services σ E) (line : Line) (form : AttributeForm)
    (column : Int) : Parsing σ (Outcome E) := do
  let e ← services.fill line ⟨visible parts.value, column⟩
  return .node (parts.node form (.expression e) line.site)

/-- The colon in front shifts the value by one column. -/
theorem Written.column_prefixed (parts : Written) :
    (units (parts.computedLine .prefixed) : Int) - units (visible parts.value) = parts.column + 1 := by
  show ((units (':' :: parts.computedLine .inline) : Nat) : Int) - _ = _
  have hcolon : width ':' = 1 := rfl
  rw [units_cons, hcolon, Written.column]
  omega

/-- What an attribute with an expression says is what the service makes of its value at its
column. -/
theorem resolved_computedLine (h : parts.Sound) (services : Services σ E)
    (htext : line.text = parts.computedLine form) :
    Assembly.resolved services directories afterConditional line =
      parts.computing services line form
        ((units (parts.computedLine form) : Int) - units (visible parts.value)) := by
  rw [Assembly.resolved_of_ofLine (ofLine_computedLine h form htext afterConditional), htext]
  show ((services.fill line _ >>= fun e => pure (Construct.attribute parts.name (.expression e) form)) >>=
    fun c => pure (Outcome.node ⟨c, line.site, [], []⟩)) = _
  simp only [bind_assoc, pure_bind]
  rfl

/-- An attribute whose value is text says it without a call. -/
theorem resolved_literalLine (h : parts.Sound) (services : Services σ E)
    (hvalue : form = .prefixed → ∀ rest, parts.value = '=' :: rest → endsWord rest = false)
    (htext : line.text = parts.literalLine form) :
    Assembly.resolved services directories afterConditional line =
      pure (.node (parts.node form (.literal (visible parts.value)) line.site)) := by
  rw [Assembly.resolved_of_ofLine (ofLine_literalLine h form hvalue htext afterConditional)]
  show (pure (Construct.attribute parts.name (.literal (visible parts.value)) form) >>=
    fun c => pure (Outcome.node ⟨c, line.site, [], []⟩)) = _
  rw [pure_bind]
  rfl

/-- Where expressions are kept as text, the value is kept, or else the line is refused. -/
theorem outcome_computing (fs : FileSystem) (column : Int) (state : σ) :
    (parts.computing (.standard fs) line form column).outcome state =
      (((Expression.read (visible parts.value) line.site (line.offset + column)).mapError
          fun message => line.fault (.reported message)).map
        fun e => .node (parts.node form (.expression e) line.site), state) := by
  have hparse : (Services.standard fs).parse ⟨visible parts.value, line.site, line.offset + column⟩ state =
      (Expression.read (visible parts.value) line.site (line.offset + column), state) := rfl
  unfold Written.computing Services.fill
  rw [outcome_bind, Services.outcome_call, hparse]
  cases Expression.read (visible parts.value) line.site (line.offset + column) <;> rfl

/-- One column further on, the value is kept as the same expression or refused for the same
reason. -/
theorem computing_shifted (parts : Written) (fs : FileSystem) (line : Line) (column : Int) (state : σ) :
    (∃ e : Expression,
      Yields (parts.computing (.standard fs) line .inline column) state
        (.node (parts.node .inline (.expression e) line.site)) state ∧
      Yields (parts.computing (.standard fs) line .prefixed (column + 1)) state
        (.node (parts.node .prefixed (.expression { e with offset := e.offset + 1 }) line.site)) state) ∨
    ∃ message,
      (parts.computing (.standard fs) line .inline column).outcome state =
        (.error (line.fault (.reported message)), state) ∧
      (parts.computing (.standard fs) line .prefixed (column + 1)).outcome state =
        (.error (line.fault (.reported message)), state) := by
  -- reading does not depend on the column, which is only kept
  have hread : Expression.read (visible parts.value) line.site (line.offset + (column + 1)) =
      (Expression.read (visible parts.value) line.site (line.offset + column)).map
        fun e => { e with offset := e.offset + 1 } := by
    rw [← Int.add_assoc]
    exact Expression.read_relocate (ρ := ⟨id, fun _ => 1⟩) (visible parts.value) line.site
      (line.offset + column)
  unfold Yields
  rw [outcome_computing, outcome_computing, hread]
  cases Expression.read (visible parts.value) line.site (line.offset + column) with
  | ok e => exact .inl ⟨e, rfl, rfl⟩
  | error message => exact .inr ⟨message, rfl, rfl⟩

/-- An attribute can be written in both forms. If its value is an expression, the lines hand over
the same text, and the column where it starts differs by the one of the colon in front; where that
text is kept or refused as it stands, so is that of the other line. If its value is text, which may
not start with an equals sign that is a word of its own, the lines say the same text. An inline
attribute is never a rule. -/
theorem forms_agree (h : parts.Sound) :
    (∀ (services : Services σ E) directories afterConditional (line : Line),
      Assembly.resolved services directories afterConditional
          { line with text := parts.computedLine .inline } =
        parts.computing services line .inline parts.column ∧
      Assembly.resolved services directories afterConditional
          { line with text := parts.computedLine .prefixed } =
        parts.computing services line .prefixed (parts.column + 1)) ∧
    (∀ fs directories afterConditional (line : Line) (state : σ),
      (∃ e : Expression,
        Yields (Assembly.resolved (.standard fs) directories afterConditional
          { line with text := parts.computedLine .inline }) state
          (.node (parts.node .inline (.expression e) line.site)) state ∧
        Yields (Assembly.resolved (.standard fs) directories afterConditional
          { line with text := parts.computedLine .prefixed }) state
          (.node (parts.node .prefixed (.expression { e with offset := e.offset + 1 }) line.site)) state) ∨
      ∃ message,
        (Assembly.resolved (.standard fs) directories afterConditional
          { line with text := parts.computedLine .inline }).outcome state =
            (.error (line.fault (.reported message)), state) ∧
        (Assembly.resolved (.standard fs) directories afterConditional
          { line with text := parts.computedLine .prefixed }).outcome state =
            (.error (line.fault (.reported message)), state)) ∧
    (∀ (services : Services σ E) directories afterConditional (line : Line),
      Assembly.resolved services directories afterConditional
          { line with text := parts.literalLine .inline } =
        pure (.node (parts.node .inline (.literal (visible parts.value)) line.site)) ∧
      ((∀ rest, parts.value = '=' :: rest → endsWord rest = false) →
        Assembly.resolved services directories afterConditional
            { line with text := parts.literalLine .prefixed } =
          pure (.node (parts.node .prefixed (.literal (visible parts.value)) line.site)))) ∧
    ∀ afterConditional (line : Line) selector,
      Reading.ofLine afterConditional { line with text := parts.computedLine .inline } ≠
        .ok (.rule selector) ∧
      Reading.ofLine afterConditional { line with text := parts.literalLine .inline } ≠
        .ok (.rule selector) := by
  -- stated for all services at once, since the second part needs it for the standard ones
  have hforms : ∀ {E : Type} (services : Services σ E) directories afterConditional (line : Line),
      Assembly.resolved services directories afterConditional
          { line with text := parts.computedLine .inline } =
        parts.computing services line .inline parts.column ∧
      Assembly.resolved services directories afterConditional
          { line with text := parts.computedLine .prefixed } =
        parts.computing services line .prefixed (parts.column + 1) := by
    intro E services directories afterConditional line
    refine ⟨resolved_computedLine h services rfl, ?_⟩
    rw [← Written.column_prefixed]
    exact resolved_computedLine h services rfl
  refine ⟨hforms, fun fs directories afterConditional line state => ?_,
    fun services directories afterConditional line => ⟨?_, fun hvalue => ?_⟩,
    fun afterConditional line selector => ⟨?_, ?_⟩⟩
  · obtain ⟨hinline, hprefixed⟩ := hforms (.standard fs) directories afterConditional line
    rw [hinline, hprefixed]
    exact computing_shifted parts fs line parts.column state
  · exact resolved_literalLine h services nofun rfl
  · exact resolved_literalLine h services (fun _ => hvalue) rfl
  · rw [ofLine_computedLine h .inline rfl]
    nofun
  · rw [ofLine_literalLine h .inline nofun rfl]
    nofun

end

/-- An attribute whose value starts with an equals sign itself. -/
def signed : Written := ⟨['a'], ['\t'], [' '], "=x"⟩

/-- Its four lines. -/
theorem forms_agree_of_signed :
    signed.Sound ∧ (∀ rest, signed.value = '=' :: rest → endsWord rest = false) ∧
    Yields (Assembly.resolved (.standard ⟨['/'], .empty⟩) [] false ⟨"a\t= =x", 1, 5, 2, none, []⟩) ()
      (.node ⟨.attribute ['a'] (.expression ⟨"=x", ⟨5, none⟩, 6⟩) .inline, ⟨5, none⟩, [], []⟩) () ∧
    Yields (Assembly.resolved (.standard ⟨['/'], .empty⟩) [] false ⟨":a\t= =x", 1, 5, 2, none, []⟩) ()
      (.node ⟨.attribute ['a'] (.expression ⟨"=x", ⟨5, none⟩, 7⟩) .prefixed, ⟨5, none⟩, [], []⟩) () ∧
    Yields (Assembly.resolved (.standard ⟨['/'], .empty⟩) [] false ⟨"a: =x", 1, 5, 2, none, []⟩) ()
      (.node ⟨.attribute ['a'] (.literal "=x") .inline, ⟨5, none⟩, [], []⟩) () ∧
    Yields (Assembly.resolved (.standard ⟨['/'], .empty⟩) [] false ⟨":a =x", 1, 5, 2, none, []⟩) ()
      (.node ⟨.attribute ['a'] (.literal "=x") .prefixed, ⟨5, none⟩, [], []⟩) () := by
  have hsound : signed.Sound :=
    ⟨by decide, ⟨'a', rfl, by decide⟩, by decide, by decide, by decide, by decide⟩
  have hvalue : ∀ rest, signed.value = '=' :: rest → endsWord rest = false := by
    rintro rest ⟨⟩
    decide
  obtain ⟨hcomputed, -, hliteral, -⟩ := @forms_agree signed Unit Expression hsound
  let line : Line := ⟨[], 1, 5, 2, none, []⟩
  obtain ⟨hinline, hprefixed⟩ := hcomputed (.standard ⟨['/'], .empty⟩) [] false line
  obtain ⟨hinline', hprefixed'⟩ := hliteral (.standard ⟨['/'], .empty⟩) [] false line
  refine ⟨hsound, hvalue, ?_, ?_, ?_, ?_⟩
  · exact (congrArg (fun p => Parsing.outcome p ()) hinline).trans rfl
  · exact (congrArg (fun p => Parsing.outcome p ()) hprefixed).trans rfl
  · exact (congrArg (fun p => Parsing.outcome p ()) hinline').trans rfl
  · exact (congrArg (fun p => Parsing.outcome p ()) (hprefixed' hvalue)).trans rfl

end Attribute

end Stylesheet
