import Stylesheet.Expression.Basic

/-!
# Balanced texts

Which texts are expressions, as a grammar: brackets come in pairs that do not cross, and strings end
with the mark that they start with.

- `Expression.StringBody`, `Expression.Balanced`: the grammar.
- `Expression.LeavesOpen`: a text that is balanced but for the brackets that it leaves open
  (`LeavesOpen.append`, `LeavesOpen.close`).
- `Expression.Mismatch`: the first closing bracket that does not belong to the innermost open one;
  `Expression.EndsInString`: a text that ends inside a string, whatever its brackets are.
- `Expression.Flaw`: what is to be reported of a text.
-/

namespace Stylesheet.Expression

/-! ## The grammar -/

/-- The character starts and ends strings. -/
def IsMark (c : Char) : Prop := c = '"' ∨ c = '\x27'

/-- An opening bracket and the closing bracket that belongs to it. -/
def IsPair (opener closer : Char) : Prop :=
  (opener = '(' ∧ closer = ')') ∨ (opener = '[' ∧ closer = ']')

/-- What stands between the two marks of a string. A backslash hides the character behind it. -/
inductive StringBody (mark : Char) : Text → Prop where
  | nil : StringBody mark []
  | char {c : Char} {t : Text} (hmark : c ≠ mark) (hescape : c ≠ '\\') (h : StringBody mark t) :
    StringBody mark (c :: t)
  | hidden (c : Char) {t : Text} (h : StringBody mark t) : StringBody mark ('\\' :: c :: t)

/-- Texts whose brackets match and whose strings end. -/
inductive Balanced : Text → Prop where
  | nil : Balanced []
  | char {c : Char} {t : Text} (hc : c ∉ ['(', ')', '[', ']', '"', '\x27']) (h : Balanced t) :
    Balanced (c :: t)
  | brackets {opener closer : Char} {s t : Text} (hpair : IsPair opener closer) (hs : Balanced s)
    (ht : Balanced t) : Balanced (opener :: (s ++ closer :: t))
  | quoted {mark : Char} {s t : Text} (hmark : IsMark mark) (hs : StringBody mark s)
    (ht : Balanced t) : Balanced (mark :: (s ++ mark :: t))

/-- The text is balanced but for the brackets that it leaves open, the innermost of which comes
first. -/
inductive LeavesOpen : List Char → Text → Prop where
  | nothing {t : Text} (h : Balanced t) : LeavesOpen [] t
  | bracket {unclosed : List Char} {opener closer : Char} {s t : Text} (hs : LeavesOpen unclosed s)
    (hpair : IsPair opener closer) (ht : Balanced t) :
    LeavesOpen (opener :: unclosed) (s ++ opener :: t)

/-- No string is open behind the text. -/
inductive StringsEnd : Text → Prop where
  | nil : StringsEnd []
  | char {c : Char} {t : Text} (hc : ¬IsMark c) (h : StringsEnd t) : StringsEnd (c :: t)
  | quoted {mark : Char} {s t : Text} (hmark : IsMark mark) (hs : StringBody mark s)
    (ht : StringsEnd t) : StringsEnd (mark :: (s ++ mark :: t))

/-- A string is open behind the text, perhaps with a backslash that has nothing to hide. -/
def EndsInString (t : Text) : Prop :=
  ∃ front mark body, StringsEnd front ∧ IsMark mark ∧ StringBody mark body ∧
    (t = front ++ mark :: body ∨ t = front ++ mark :: (body ++ ['\\']))

/-- The first closing bracket outside strings that does not belong to the innermost open bracket
is `closer`. -/
def Mismatch (t : Text) (closer : Char) : Prop :=
  ∃ front back unclosed, t = front ++ closer :: back ∧ LeavesOpen unclosed front ∧
    (∃ opener, IsPair opener closer) ∧ ∀ opener ∈ unclosed.head?, ¬IsPair opener closer

/-- What is to be reported of a text that is not empty. -/
inductive Flaw (t : Text) : Defect → Prop where
  | unexpected {closer : Char} (h : Mismatch t closer) : Flaw t (.unexpected closer)
  | unterminated (hmatch : ∀ closer, ¬Mismatch t closer) (h : EndsInString t) :
    Flaw t .unterminated
  | unclosed {opener : Char} {unclosed : List Char} (hmatch : ∀ closer, ¬Mismatch t closer)
    (hend : ¬EndsInString t) (h : LeavesOpen (opener :: unclosed) t) : Flaw t (.unclosed opener)

variable {c mark opener closer : Char} {s t : Text} {unclosed : List Char}

/-! ## Texts behind each other -/

theorem StringBody.append (hs : StringBody mark s) (ht : StringBody mark t) :
    StringBody mark (s ++ t) := by
  induction hs with
  | nil => exact ht
  | char hmark hescape _ ih => exact .char hmark hescape ih
  | hidden c _ ih => exact .hidden c ih

/-- Balanced texts behind each other are balanced. -/
theorem Balanced.append (hs : Balanced s) (ht : Balanced t) : Balanced (s ++ t) := by
  induction hs with
  | nil => exact ht
  | char hc _ ih => exact .char hc ih
  | brackets hpair hinner _ _ ih =>
    rw [List.cons_append, List.append_assoc]
    exact .brackets hpair hinner ih
  | quoted hmark hbody _ ih =>
    rw [List.cons_append, List.append_assoc]
    exact .quoted hmark hbody ih

theorem StringsEnd.append (hs : StringsEnd s) (ht : StringsEnd t) : StringsEnd (s ++ t) := by
  induction hs with
  | nil => exact ht
  | char hc _ ih => exact .char hc ih
  | quoted hmark hbody _ ih =>
    rw [List.cons_append, List.append_assoc]
    exact .quoted hmark hbody ih

/-- A balanced text leaves open what was open. -/
theorem LeavesOpen.append (hs : LeavesOpen unclosed s) (ht : Balanced t) :
    LeavesOpen unclosed (s ++ t) := by
  cases hs with
  | nothing h => exact .nothing (h.append ht)
  | bracket hfront hpair hback =>
    rw [List.append_assoc]
    exact .bracket hfront hpair (hback.append ht)

/-- The closing bracket that belongs to the innermost open one closes it. -/
theorem LeavesOpen.close (hs : LeavesOpen (opener :: unclosed) s) (hpair : IsPair opener closer) :
    LeavesOpen unclosed (s ++ [closer]) := by
  cases hs with
  | bracket hfront _ hback =>
    rw [List.append_assoc]
    exact hfront.append (.brackets hpair hback .nil)

/-- The characters that do not stand for themselves are brackets and marks. -/
theorem mem_special_iff : c ∈ ['(', ')', '[', ']', '"', '\x27'] ↔
    (∃ closer, IsPair c closer) ∨ (∃ opener, IsPair opener c) ∨ IsMark c := by
  simp only [IsPair, IsMark, exists_or, exists_and_left, exists_and_right, exists_eq, true_and,
    and_true, List.mem_cons, List.not_mem_nil, or_false]
  grind

/-- No bracket is a quotation mark. -/
theorem not_isMark_of_isPair (h : IsPair opener closer) : ¬IsMark opener ∧ ¬IsMark closer := by
  rcases h with ⟨rfl, rfl⟩ | ⟨rfl, rfl⟩ <;> simp [IsMark]

/-- In a balanced text every string ends. -/
theorem Balanced.stringsEnd (h : Balanced t) : StringsEnd t := by
  induction h with
  | nil => exact .nil
  | char hc _ ih => exact .char (fun hmark => hc (mem_special_iff.mpr (.inr (.inr hmark)))) ih
  | brackets hpair _ _ ihs iht =>
    obtain ⟨hopener, hcloser⟩ := not_isMark_of_isPair hpair
    exact .char hopener (ihs.append (.char hcloser iht))
  | quoted hmark hs _ ih => exact .quoted hmark hs ih

theorem LeavesOpen.stringsEnd (h : LeavesOpen unclosed t) : StringsEnd t := by
  induction h with
  | nothing h => exact h.stringsEnd
  | bracket _ hpair hback ih => exact ih.append (.char (not_isMark_of_isPair hpair).1 hback.stringsEnd)

end Stylesheet.Expression
