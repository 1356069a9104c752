import Stylesheet.Proofs.Construct.Parts
import Stylesheet.Proofs.Document.Faults

/-!
# Runs of calls

Lines ask the services, one after the other, and the first call that is refused is the last one.

- `Line.Puts`: a line puts what it asks to the services, as a call.
- `Runs`: a run of calls that answers what lines ask. It has one constructor for each way to end:
  all is answered, something is wrong on a line, or a call is refused.
- `Runs.puts`, `Runs.refused_last`, `Runs.on_of_error`: each call is made in its turn, none after
  one that is refused, and an error is on a line. `Runs.all_served`: a run that succeeds answers all
  that is asked.
- `Parsing.Traced`: a computation makes such a run, and the same with noted calls notes them. There
  is one lemma for each way to build a computation.
-/

namespace Stylesheet

open Parsing

variable {σ E α β γ : Type}

/-- The message with which a call was refused. -/
def Services.Call.refusal? : Services.Call E → Option Text
  | .expression _ (.error message) => some message
  | .sheet _ _ (.error message) => some message
  | _ => none

/-- What a line asks is put to the services in one state. They answer, and leave another one. -/
inductive Line.Puts (services : Services σ E) (directories : List Text) (line : Line) :
    Ask → σ → Services.Call E → σ → Prop where
  | expression {part : Part} {slot : Slot} {state next : σ} {answer : Except Text E}
    (h : services.parse (line.request slot) state = (answer, next)) :
    Puts services directories line (.expression part slot) state
      (.expression (line.request slot) answer) next
  | sheet {name : Text} {state next : σ} {answer : Except Text Text}
    (h : services.locate name directories state = (answer, next)) :
    Puts services directories line (.sheet name) state (.sheet name directories answer) next

/-! ## Runs of calls -/

/-- What lines ask is put to the services one after the other. -/
inductive Runs (services : Services σ E) (directories : List Text) (lines : List WrittenLine) :
    List (Line × Ask) → σ → List (Services.Call E) → Except SyntaxError α → σ → Prop where
  | done {a : α} {state : σ} : Runs services directories lines [] state [] (.ok a) state
  | fault {asks : List (Line × Ask)} {e : SyntaxError} {state : σ} (h : e.On lines) :
    Runs services directories lines asks state [] (.error e) state
  | refused {line : Line} {ask : Ask} {asks : List (Line × Ask)} {call : Services.Call E}
    {message : Text} {state next : σ} (hputs : line.Puts services directories ask state call next)
    (hrefused : call.refusal? = some message) :
    Runs services directories lines ((line, ask) :: asks) state [call]
      (.error (line.fault (.reported message))) next
  | served {line : Line} {ask : Ask} {asks : List (Line × Ask)} {call : Services.Call E}
    {calls : List (Services.Call E)} {result : Except SyntaxError α} {state middle next : σ}
    (hputs : line.Puts services directories ask state call middle) (hserved : call.refusal? = none)
    (h : Runs services directories lines asks middle calls result next) :
    Runs services directories lines ((line, ask) :: asks) state (call :: calls) result next

namespace Runs

variable {services : Services σ E} {directories : List Text} {lines : List WrittenLine}
  {asks more : List (Line × Ask)} {calls others : List (Services.Call E)} {state middle next : σ}

/-- A run that succeeds goes on with what is asked afterwards. -/
theorem append {a : α} {result : Except SyntaxError β}
    (h : Runs services directories lines asks state calls (.ok a : Except SyntaxError α) middle)
    (hmore : Runs services directories lines more middle others result next) :
    Runs services directories lines (asks ++ more) state (calls ++ others) result next := by
  generalize hok : (Except.ok a : Except SyntaxError α) = first at h
  induction h with
  | done => exact hmore
  | fault => cases hok
  | refused => cases hok
  | served hputs hserved _ ih => exact .served hputs hserved (ih hmore hok)

/-- A run that fails is not changed by what would be asked afterwards. -/
theorem append_of_error {e : SyntaxError}
    (h : Runs services directories lines asks state calls (.error e : Except SyntaxError α) next)
    (more : List (Line × Ask)) :
    Runs services directories lines (asks ++ more) state calls (.error e : Except SyntaxError β)
      next := by
  generalize herror : (Except.error e : Except SyntaxError α) = first at h
  induction h with
  | done => cases herror
  | fault h =>
    cases herror
    exact .fault h
  | refused hputs hrefused =>
    cases herror
    exact .refused hputs hrefused
  | served hputs hserved _ ih => exact .served hputs hserved (ih herror)

end Runs

namespace Runs

variable {services : Services σ E} {directories : List Text} {lines : List WrittenLine}
  {asks : List (Line × Ask)} {calls front back : List (Services.Call E)} {call : Services.Call E}
  {state next : σ} {result : Except SyntaxError α}

/-- Each call answers what is asked in its turn. -/
theorem puts (h : Runs services directories lines asks state calls result next) {index : Nat}
    (hcall : calls[index]? = some call) :
    ∃ line ask before after, asks[index]? = some (line, ask) ∧
      line.Puts services directories ask before call after := by
  induction h generalizing index with
  | done => cases hcall
  | fault => cases hcall
  | refused hputs =>
    cases index with
    | zero =>
      cases hcall
      exact ⟨_, _, _, _, rfl, hputs⟩
    | succ index => cases hcall
  | served hputs _ _ ih =>
    cases index with
    | zero =>
      cases hcall
      exact ⟨_, _, _, _, rfl, hputs⟩
    | succ index => exact ih hcall

/-- A call that is refused is the last one, and the line that asked is at fault. -/
theorem refused_last {message : Text}
    (h : Runs services directories lines asks state (front ++ call :: back) result next)
    (hrefused : call.refusal? = some message) :
    back = [] ∧ ∃ line ask before, asks[front.length]? = some (line, ask) ∧
      line.Puts services directories ask before call next ∧
        result = .error (line.fault (.reported message)) := by
  generalize hcalls : front ++ call :: back = calls at h
  induction h generalizing front with
  | done => simp at hcalls
  | fault => simp at hcalls
  -- nothing follows a refusal, so the refused call can only be the first of what is left
  | refused hputs hfirst =>
    cases front with
    | nil =>
      cases hcalls
      rw [hfirst] at hrefused
      cases hrefused
      exact ⟨rfl, _, _, _, rfl, hputs, rfl⟩
    | cons first front => simp at hcalls
  | served hputs hserved _ ih =>
    cases front with
    | nil =>
      cases hcalls
      rw [hserved] at hrefused
      cases hrefused
    | cons first front =>
      cases hcalls
      exact ih rfl

/-- Where all goes well no call is refused, and all that is asked is put to the services. -/
theorem all_served {a : α}
    (h : Runs services directories lines asks state calls (.ok a : Except SyntaxError α) next) :
    (∀ call ∈ calls, call.refusal? = none) ∧
      ∀ line ask, (line, ask) ∈ asks →
        ∃ call ∈ calls, ∃ before after, line.Puts services directories ask before call after := by
  generalize hok : (Except.ok a : Except SyntaxError α) = result at h
  induction h with
  | done => exact ⟨fun _ h => absurd h List.not_mem_nil, fun _ _ h => absurd h List.not_mem_nil⟩
  | fault => cases hok
  | refused => cases hok
  | served hputs hserved _ ih =>
    obtain ⟨hall, hasks⟩ := ih hok
    refine ⟨List.forall_mem_cons.mpr ⟨hserved, hall⟩, fun line ask hmem => ?_⟩
    rcases List.mem_cons.mp hmem with heq | hmem
    · cases heq
      exact ⟨_, List.mem_cons_self, _, _, hputs⟩
    · obtain ⟨call, hcall, hputs⟩ := hasks line ask hmem
      exact ⟨call, List.mem_cons_of_mem _ hcall, hputs⟩

/-- A run fails on a line, or on one of the lines that ask. -/
theorem on_of_error {e : SyntaxError}
    (h : Runs services directories lines asks state calls (.error e : Except SyntaxError α) next)
    (hasks : ∀ line ask, (line, ask) ∈ asks → line.written ∈ lines) : e.On lines := by
  generalize herror : (Except.error e : Except SyntaxError α) = failed at h
  induction h with
  | done => cases herror
  | fault h =>
    cases herror
    exact h
  | refused =>
    cases herror
    exact Line.on_fault (hasks _ _ List.mem_cons_self) _
  | served _ _ _ ih =>
    exact ih (fun line ask hmem => hasks line ask (List.mem_cons_of_mem _ hmem)) herror

end Runs

/-! ## Computations that make runs -/

/-- A computation makes a run of calls that answers what is asked. With noted calls the same
computation gives the same, and puts these calls behind those that are noted already. -/
def Parsing.Traced (services : Services σ E) (directories : List Text) (lines : List WrittenLine)
    (asks : List (Line × Ask)) (p : Parsing σ α) (p' : Parsing (σ × List (Services.Call E)) α) : Prop :=
  ∀ state noted, ∃ calls,
    p'.outcome (state, noted) = ((p.outcome state).1, (p.outcome state).2, noted ++ calls) ∧
      Runs services directories lines asks state calls (p.outcome state).1 (p.outcome state).2

namespace Parsing

variable {services : Services σ E} {directories : List Text} {lines : List WrittenLine}
  {asks more : List (Line × Ask)} {p : Parsing σ α} {p' : Parsing (σ × List (Services.Call E)) α}
  {f : α → Parsing σ β} {f' : α → Parsing (σ × List (Services.Call E)) β}

theorem traced_pure (a : α) : Traced services directories lines [] (pure a) (pure a) :=
  fun _ noted => ⟨[], by rw [List.append_nil]; rfl, .done⟩

/-- An error that is on one of the lines needs no call. -/
theorem traced_throw {e : SyntaxError} (h : e.On lines) :
    Traced services directories lines asks (throw e : Parsing σ α) (throw e) :=
  fun _ noted => ⟨[], by rw [List.append_nil]; rfl, .fault h⟩

/-- What needs no services makes no calls. -/
theorem traced_lift {q : Except SyntaxError α} (h : ∀ e, q = .error e → e.On lines) :
    Traced services directories lines [] (liftM q : Parsing σ α) (liftM q) := by
  cases q with
  | ok a => exact traced_pure a
  | error e => exact traced_throw (h e rfl)

/-- One computation behind another makes its calls behind those of the other. -/
theorem Traced.bind (hp : Traced services directories lines asks p p')
    (hf : ∀ a state next, Yields p state a next →
      Traced services directories lines more (f a) (f' a)) :
    Traced services directories lines (asks ++ more) (p >>= f) (p' >>= f') := by
  intro state noted
  obtain ⟨calls, hnoted, hruns⟩ := hp state noted
  rw [outcome_bind, outcome_bind, hnoted]
  cases hp : p.outcome state with
  | mk result middle =>
    rw [hp] at hruns
    cases result with
    | error e => exact ⟨calls, rfl, hruns.append_of_error more⟩
    | ok a =>
      obtain ⟨others, hnoted', hruns'⟩ := hf a state middle hp middle (noted ++ calls)
      exact ⟨calls ++ others, by rw [← List.append_assoc]; exact hnoted', hruns.append hruns'⟩

/-- A computation that goes on with a result asks no more than what comes then. -/
theorem Traced.lift_bind {q : Except SyntaxError α} (hq : ∀ e, q = .error e → e.On lines)
    (hf : ∀ a, q = .ok a → Traced services directories lines asks (f a) (f' a)) :
    Traced services directories lines asks ((liftM q : Parsing σ α) >>= f) (liftM q >>= f') := by
  cases q with
  | ok a => exact hf a rfl
  | error e => exact traced_throw (hq e rfl)

/-- Nothing more is asked by what comes last. -/
theorem Traced.bind_last (hp : Traced services directories lines asks p p')
    (hf : ∀ a state next, Yields p state a next →
      Traced services directories lines [] (f a) (f' a)) :
    Traced services directories lines asks (p >>= f) (p' >>= f') := by
  have hbind := hp.bind hf
  rwa [List.append_nil] at hbind

theorem Traced.map_pure (hp : Traced services directories lines asks p p') (g : α → β) :
    Traced services directories lines asks (p >>= fun a => pure (g a)) (p' >>= fun a => pure (g a)) :=
  hp.bind_last fun a _ _ _ => traced_pure (g a)

/-- Over a list the calls are made in its order. -/
theorem traced_mapM {g : γ → Parsing σ α} {g' : γ → Parsing (σ × List (Services.Call E)) α}
    {ask : γ → List (Line × Ask)} (xs : List γ)
    (h : ∀ x ∈ xs, Traced services directories lines (ask x) (g x) (g' x)) :
    Traced services directories lines (xs.flatMap ask) (xs.mapM g) (xs.mapM g') := by
  induction xs with
  | nil => exact traced_pure []
  | cons x xs ih =>
    obtain ⟨hx, hxs⟩ := List.forall_mem_cons.mp h
    rw [List.mapM_cons, List.mapM_cons, List.flatMap_cons]
    exact hx.bind fun b _ _ _ => (ih hxs).map_pure (b :: ·)

end Parsing

/-! ## Calls for a line -/

namespace Services

variable {services : Services σ E} {directories : List Text} {lines : List WrittenLine} {line : Line}

/-- A call leaves the state that the service leaves, and its failure is on the line. -/
theorem outcome_call (ask : StateM σ (Except Text α)) (state : σ) :
    (call line ask).outcome state =
      ((ask state).1.mapError fun message => line.fault (.reported message), (ask state).2) := by
  have hask : (liftM ask : Parsing σ (Except Text α)).outcome state =
      (.ok (ask state).1, (ask state).2) := rfl
  unfold call
  rw [outcome_bind, hask]
  cases (ask state).1 <;> rfl

/-- A service that is called for a line answers one request, and is noted with its answer. -/
theorem traced_call (note : Except Text α → Call E) {ask : StateM σ (Except Text α)}
    {ask' : StateM (σ × List (Call E)) (Except Text α)} {asked : Ask}
    (hask : ∀ state noted,
      ask' (state, noted) = ((ask state).1, (ask state).2, noted ++ [note (ask state).1]))
    (hputs : ∀ state, line.Puts services directories asked state (note (ask state).1) (ask state).2)
    (hok : ∀ a, (note (.ok a)).refusal? = none)
    (herror : ∀ message, (note (.error message)).refusal? = some message) :
    Traced services directories lines [(line, asked)] (call line ask) (call line ask') := by
  intro state noted
  have hstate := hputs state
  refine ⟨[note (ask state).1], by rw [outcome_call, outcome_call, hask], ?_⟩
  rw [outcome_call]
  cases hanswer : (ask state).1 with
  | ok a =>
    rw [hanswer] at hstate
    exact .served hstate (hok a) .done
  | error message =>
    rw [hanswer] at hstate
    exact .refused hstate (herror message)

theorem traced_fill (part : Part) (slot : Slot) :
    Traced services directories lines [(line, .expression part slot)] (services.fill line slot)
      (services.recorded.fill line slot) :=
  traced_call (.expression (line.request slot)) (fun _ _ => rfl) (fun _ => .expression rfl)
    (fun _ => rfl) (fun _ => rfl)

theorem traced_find (name : Text) :
    Traced services directories lines [(line, .sheet name)] (services.find directories line name)
      (services.recorded.find directories line name) :=
  traced_call (.sheet name directories) (fun _ _ => rfl) (fun _ => .sheet rfl)
    (fun _ => rfl) (fun _ => rfl)

end Services

end Stylesheet
