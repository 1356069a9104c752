import Mathlib.Control.Monad.Basic
import Stylesheet.Document.Services

/-!
# Computations that succeed

Reading a document succeeds if each of its steps does. The lemmas of this module take a computation
that has succeeded apart into its steps, so that no proof has to open a monad.

- `bind_eq_ok`, `map_eq_ok`: the same for results without a state; `bind_eq_error` and
  `map_eq_error` for those that fail.
- `Parsing.Yields`: a computation takes one state of the services to another and gives a value.
  There is one lemma for each way to build a computation (`yields_bind`, `yields_lift`, …).
-/

namespace Stylesheet

variable {ε α β : Type}

/-! ## Results -/

/-- Two steps succeed if the first one does and the second one does on its value. -/
theorem bind_eq_ok {p : Except ε α} {f : α → Except ε β} {b : β} :
    (p >>= f) = .ok b ↔ ∃ a, p = .ok a ∧ f a = .ok b := by
  cases p with
  | error e =>
    constructor
    · intro h
      cases h
    · rintro ⟨_, h, _⟩
      cases h
  | ok a =>
    constructor
    · intro h
      exact ⟨a, rfl, h⟩
    · rintro ⟨_, h, hf⟩
      cases h
      exact hf

/-- Two steps fail if the first one does, or if the second one does on its value. -/
theorem bind_eq_error {p : Except ε α} {f : α → Except ε β} {e : ε} :
    (p >>= f) = .error e ↔ p = .error e ∨ ∃ a, p = .ok a ∧ f a = .error e := by
  cases p with
  | error e' =>
    constructor
    · intro h
      cases h
      exact .inl rfl
    · rintro (h | ⟨_, h, -⟩)
      · cases h
        rfl
      · cases h
  | ok a =>
    constructor
    · intro h
      exact .inr ⟨a, rfl, h⟩
    · rintro (h | ⟨_, h, hf⟩)
      · cases h
      · cases h
        exact hf

/-- A result that is changed comes from one that is a value. -/
theorem map_eq_ok {f : α → β} {p : Except ε α} {b : β} :
    p.map f = .ok b ↔ ∃ a, p = .ok a ∧ f a = b := by
  cases p with
  | error e =>
    constructor
    · intro h
      cases h
    · rintro ⟨_, h, _⟩
      cases h
  | ok a =>
    constructor
    · intro h
      exact ⟨a, rfl, Except.ok.inj h⟩
    · rintro ⟨_, h, rfl⟩
      cases h
      rfl

theorem map_eq_error {f : α → β} {p : Except ε α} {e : ε} : p.map f = .error e ↔ p = .error e := by
  cases p with
  | error e' => exact ⟨fun h => congrArg _ (Except.error.inj h), fun h => congrArg _ (Except.error.inj h)⟩
  | ok a =>
    constructor
    · intro h
      cases h
    · intro h
      cases h

/-- A change of the error leaves success as it is. -/
theorem mapError_eq_ok {ε' : Type} {g : ε → ε'} {p : Except ε α} {a : α} :
    p.mapError g = .ok a ↔ p = .ok a := by
  cases p with
  | error e =>
    constructor
    · intro h
      cases h
    · intro h
      cases h
  | ok b => exact ⟨fun h => by cases h; rfl, fun h => by cases h; rfl⟩

theorem exists_eq_ok {p : Except ε α} : p.isOk = true ↔ ∃ a, p = .ok a := by
  cases p with
  | error e =>
    constructor
    · intro h
      cases h
    · rintro ⟨_, h⟩
      cases h
  | ok a => exact ⟨fun _ => ⟨a, rfl⟩, fun _ => rfl⟩

/-! ## Computations with a state -/

namespace Parsing

variable {σ : Type}

/-- What a computation gives when it is started with the services in one state, and the state it
leaves them in. -/
def outcome (p : Parsing σ α) (state : σ) : Except SyntaxError α × σ := ExceptT.run p state

/-- The computation succeeds with a value and leaves the services in another state. -/
def Yields (p : Parsing σ α) (state : σ) (a : α) (next : σ) : Prop :=
  p.outcome state = (.ok a, next)

variable {p : Parsing σ α} {f : α → Parsing σ β} {state next : σ}

theorem yields_pure {a b : α} :
    Yields (pure a : Parsing σ α) state b next ↔ a = b ∧ state = next := by
  show ((Except.ok a, state) : Except SyntaxError α × σ) = _ ↔ _
  simp

/-- A composed computation runs its second part in the state that the first one leaves. -/
theorem outcome_bind (p : Parsing σ α) (f : α → Parsing σ β) (state : σ) :
    (p >>= f).outcome state =
      match p.outcome state with
      | (.ok a, middle) => (f a).outcome middle
      | (.error e, middle) => (.error e, middle) := by
  show ExceptT.bindCont f (p state).1 (p state).2 = _
  unfold outcome ExceptT.run
  cases p state with
  | mk result middle => cases result <;> rfl

/-- A changed error changes neither a value nor the state. -/
theorem outcome_adapt (p : Parsing σ α) (g : SyntaxError → SyntaxError) (state : σ) :
    Parsing.outcome (ExceptT.adapt g p) state = ((p.outcome state).1.mapError g, (p.outcome state).2) :=
  rfl

/-- Two steps yield what the second one yields on the value and the state of the first. -/
theorem yields_bind {b : β} :
    Yields (p >>= f) state b next ↔
      ∃ a middle, Yields p state a middle ∧ Yields (f a) middle b next := by
  unfold Yields
  rw [outcome_bind]
  cases p.outcome state with
  | mk result middle =>
    cases result with
    | ok a =>
      constructor
      · intro h
        exact ⟨a, middle, rfl, h⟩
      · rintro ⟨_, _, h, hf⟩
        cases h
        exact hf
    | error e => simp

/-- A step without services leaves their state. -/
theorem yields_lift {q : Except SyntaxError α} {a : α} :
    Yields (liftM q : Parsing σ α) state a next ↔ q = .ok a ∧ state = next := by
  show ((q, state) : Except SyntaxError α × σ) = _ ↔ _
  simp

/-- What becomes of an error does not matter to what is yielded. -/
theorem yields_adapt {g : SyntaxError → SyntaxError} {a : α} :
    Yields (ExceptT.adapt g p) state a next ↔ Yields p state a next := by
  unfold Yields
  rw [outcome_adapt]
  cases p.outcome state with
  | mk result middle =>
    cases result with
    | ok a => exact Iff.rfl
    | error e =>
      constructor
      · intro h
        have h : ((Except.error (g e), middle) : Except SyntaxError α × σ) = (.ok a, next) := h
        cases h
      · intro h
        cases h

/-- The members of a list that is worked through one by one. -/
theorem yields_mapM_cons {g : α → Parsing σ β} {a : α} {as : List α} {bs : List β} :
    Yields ((a :: as).mapM g) state bs next ↔
      ∃ b middle rest, Yields (g a) state b middle ∧ Yields (as.mapM g) middle rest next ∧
        bs = b :: rest := by
  rw [List.mapM_cons, yields_bind]
  simp only [yields_bind, yields_pure]
  constructor
  · rintro ⟨b, middle, hb, rest, _, hrest, rfl, rfl⟩
    exact ⟨b, middle, rest, hb, hrest, rfl⟩
  · rintro ⟨b, middle, rest, hb, hrest, rfl⟩
    exact ⟨b, middle, hb, rest, next, hrest, rfl, rfl⟩

/-- Every value comes from a step that succeeds. -/
theorem mem_of_yields_mapM {g : α → Parsing σ β} {as : List α} {bs : List β} {b : β}
    (h : Yields (as.mapM g) state bs next) (hb : b ∈ bs) :
    ∃ a ∈ as, ∃ before after, Yields (g a) before b after := by
  induction as generalizing state bs with
  | nil =>
    obtain ⟨rfl, -⟩ := yields_pure.mp h
    exact absurd hb List.not_mem_nil
  | cons a as ih =>
    obtain ⟨first, middle, rest, hfirst, hrest, rfl⟩ := yields_mapM_cons.mp h
    rcases List.mem_cons.mp hb with rfl | hb
    · exact ⟨a, List.mem_cons_self, state, middle, hfirst⟩
    · obtain ⟨other, hother, hyields⟩ := ih hrest hb
      exact ⟨other, List.mem_cons_of_mem a hother, hyields⟩

/-- A property that each step gives its value holds of all values. -/
theorem forall_of_yields_mapM {g : α → Parsing σ β} {P : β → Prop} {as : List α} {bs : List β}
    (h : Yields (as.mapM g) state bs next)
    (hP : ∀ a state b next, Yields (g a) state b next → P b) :
    bs.length = as.length ∧ ∀ b ∈ bs, P b := by
  induction as generalizing state bs with
  | nil =>
    obtain ⟨rfl, -⟩ := yields_pure.mp h
    exact ⟨rfl, fun b hb => absurd hb List.not_mem_nil⟩
  | cons a as ih =>
    obtain ⟨b, middle, rest, hb, hrest, rfl⟩ := yields_mapM_cons.mp h
    obtain ⟨hlength, hall⟩ := ih hrest
    refine ⟨congrArg Nat.succ hlength, fun c hc => ?_⟩
    rcases List.mem_cons.mp hc with rfl | hc
    · exact hP a state c middle hb
    · exact hall c hc

end Parsing

end Stylesheet
