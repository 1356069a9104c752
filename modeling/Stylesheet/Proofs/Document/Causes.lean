import Stylesheet.Proofs.Document.Calls

/-!
# What is wrong with a document is wrong with its text

Reading a document may fail because of its text, or with the message of a service. That a stylesheet
cannot be read is never said by the reading of a document.

- `Cause.isTextual`: whether a cause is one that a text can have.
- `Textual`: a result is a value as it should be, or an error with such a cause. There is one lemma
  for each reader, up to `Reading.textual_ofLine`.
- `Parsing.FailsByText`: a computation fails with such a cause only. `Assembly.failsByText_line` and
  `Assembly.failsByText_forest` show it of the lines of a document.
- `Document.error_of_parse`: so an error of a document has such a cause, and names the document's
  file.
-/

namespace Stylesheet

open Parsing

variable {σ E α β γ : Type}

/-- Whether a text can be wrong in this way. -/
def Cause.isTextual : Cause → Bool
  | .unreadable _ => false
  | _ => true

/-! ## Results -/

/-- A value with a property, or an error that a text can have. -/
def Textual (P : α → Prop) : Except SyntaxError α → Prop
  | .ok a => P a
  | .error e => e.cause.isTextual = true

/-- A result that is textual stays so if all that follows on its value is. -/
theorem Textual.bind {P : α → Prop} {Q : β → Prop} {p : Except SyntaxError α}
    {f : α → Except SyntaxError β} (hp : Textual P p) (hf : ∀ a, P a → Textual Q (f a)) :
    Textual Q (p >>= f) := by
  cases p with
  | ok a => exact hf a hp
  | error e => exact hp

/-- The cause of an error is one that a text can have. -/
theorem Textual.cause {P : α → Prop} {p : Except SyntaxError α} {e : SyntaxError} (h : Textual P p)
    (he : p = .error e) : e.cause.isTextual = true := by
  rw [he] at h
  exact h

/-- A value, or an error that a text can have. -/
abbrev Unblamed (p : Except SyntaxError α) : Prop := Textual (fun _ => True) p

/-! ## Reading a line -/

namespace Reading

variable {line : Line} {afterConditional : Bool}

/-- What is wrong with the parameters of a definition is wrong with their text. -/
def IsTextual : Reading → Prop
  | .definition _ parameters => ∀ cause, .error cause ∈ parameters → cause.isTextual = true
  | _ => True

/-- A line that gives no construct is blamed on its text. -/
theorem textual_ofConstruct? {cause : Cause} (h : cause.isTextual = true)
    (c? : Option (Construct Slot)) : Textual IsTextual (ofConstruct? line cause c?) := by
  cases c? with
  | none => exact h
  | some c => trivial

/-- A line beneath another one that may have none is in the text. -/
theorem textual_forbidNesting (parent : Childless) : Unblamed (line.forbidNesting parent) := by
  unfold Line.forbidNesting
  split
  · trivial
  · rfl

/-- A value that is missing is missing in the text. -/
theorem textual_required (directive : Directive) : Unblamed (required line directive) := by
  unfold required
  split
  · rfl
  · rfl
  · trivial

theorem textual_ofPlain : Textual IsTextual (ofPlain line) := by
  unfold ofPlain
  split
  · exact textual_ofConstruct? rfl _
  · trivial

theorem textual_ofAttribute : Textual IsTextual (ofAttribute line) := by
  unfold ofAttribute
  split
  · trivial
  · exact textual_ofConstruct? rfl _

theorem textual_ofBinding : Textual IsTextual (ofBinding line) :=
  (textual_forbidNesting _).bind fun _ _ => textual_ofConstruct? rfl _

theorem textual_ofComment : Textual IsTextual (ofComment line) := by
  unfold ofComment
  split <;> trivial

/-- An entry that is no parameter is wrong as a text. -/
theorem isTextual_of_parameter {optional : Bool} {entry : Slot} {cause : Cause}
    (h : Mixin.parameter optional entry = .error cause) : cause.isTextual = true := by
  unfold Mixin.parameter at h
  dsimp only at h
  -- the entry is no variable, its default is missing, its name is wrong, or it is out of order
  split at h
  · cases h
    rfl
  · split at h
    · cases h
      rfl
    · split at h
      · cases h
        rfl
      · split at h
        · cases h
          rfl
        · cases h

/-- So is any entry of a list. -/
theorem isTextual_of_mem_parameters {optional : Bool} {entries : List Slot} {cause : Cause}
    (h : .error cause ∈ Mixin.parameters optional entries) : cause.isTextual = true := by
  induction entries generalizing optional with
  | nil => exact absurd h List.not_mem_nil
  | cons entry entries ih =>
    rcases List.mem_cons.mp h with h | h
    · exact isTextual_of_parameter h.symm
    · exact ih h

/-- A definition passes on what is wrong with its parameters. -/
theorem textual_ofDefinition : Textual IsTextual (ofDefinition line) := by
  unfold ofDefinition
  split
  · exact fun _ => isTextual_of_mem_parameters
  · rfl

theorem textual_ofInclude : Textual IsTextual (ofInclude line) := by
  unfold ofInclude
  split
  · trivial
  · refine (textual_forbidNesting _).bind fun _ _ => ?_
    split
    · rfl
    · split
      · rfl
      · trivial

theorem textual_ofImport (directive : Directive) : Textual IsTextual (ofImport line directive) := by
  unfold ofImport
  split
  · rfl
  · rfl
  · exact (textual_forbidNesting _).bind fun _ _ => trivial

theorem textual_ofAlternative (directive : Directive) :
    Textual IsTextual (ofAlternative afterConditional line directive) := by
  unfold ofAlternative
  split
  · rfl
  · split
    · trivial
    · trivial
    · split
      · rfl
      · trivial

/-- A loop that cannot be read is wrong as a text. -/
theorem isTextual_of_loop {column : Int} {head : Text} {cause : Cause}
    (h : Loop.read line.text column head = .error cause) : cause.isTextual = true := by
  unfold Loop.read at h
  split at h
  · cases h
    rfl
  · split at h
    · cases h
    · cases h
      rfl

/-- So is every directive that cannot be read. -/
theorem textual_ofDirective : Textual IsTextual (ofDirective afterConditional line) := by
  unfold ofDirective
  dsimp only
  split
  · trivial
  · exact textual_ofImport _
  · exact textual_ofAlternative _
  · split
    · trivial
    · rename_i hread
      exact isTextual_of_loop hread
  · exact (textual_required _).bind fun _ _ => trivial
  · exact (textual_required _).bind fun _ _ => trivial
  · exact (textual_required _).bind fun _ _ => (textual_forbidNesting _).bind fun _ _ => trivial

/-- A line is read, or its text is wrong. -/
theorem textual_ofLine (afterConditional : Bool) (line : Line) :
    Textual IsTextual (ofLine afterConditional line) := by
  unfold ofLine
  split
  · rename_i mark _
    match mark with
    | .binding => exact textual_ofBinding
    | .mixinInclude => exact textual_ofInclude
    | .comment => exact textual_ofComment
    | .attribute => exact textual_ofAttribute
    | .definition => exact textual_ofDefinition
    | .directive => exact textual_ofDirective
    | .escape => trivial
  · exact textual_ofPlain

end Reading

/-! ## Lines and siblings -/

namespace Line

/-- A source is cut into lines, or its text is indented wrongly. -/
theorem unblamed_ofPhysical {filename : Option Text} {firstLine : Int} {layout : Layout}
    {position : Nat} {raws : List PhysicalLine} :
    Unblamed (ofPhysical filename firstLine layout position raws) := by
  induction raws generalizing layout position with
  | nil => trivial
  | cons raw rest ih =>
    rw [ofPhysical]
    split
    · exact ih
    · dsimp only
      split
      · rename_i cause hmeasure
        show cause.isTextual = true
        -- a layout refuses an indentation at the start, one that is mixed, and one that does not
        -- repeat the unit
        unfold Layout.measure at hmeasure
        split at hmeasure
        · dsimp only at hmeasure
          split at hmeasure
          · cases hmeasure
          · cases hmeasure
            rfl
        · cases hmeasure
        · cases hmeasure
          rfl
        · split at hmeasure
          · cases hmeasure
            rfl
          · cases hmeasure
      · rename_i layout depth _
        have hrest : Unblamed (ofPhysical filename firstLine layout (position + 1) rest) := ih
        cases hbelow : ofPhysical filename firstLine layout (position + 1) rest with
        | ok below => trivial
        | error e => exact hrest.cause hbelow

theorem unblamed_ofSource (source : Text) (firstLine : Int) (filename : Option Text) :
    Unblamed (ofSource source firstLine filename) :=
  unblamed_ofPhysical

/-- Lines that are nested too deep are the fault of the text. -/
theorem unblamed_nest (lines : List Line) (start : Nat) : Unblamed (nest lines start) := by
  unfold nest
  dsimp only
  split
  · rfl
  · trivial

end Line

namespace Siblings

variable {root : Bool} {siblings : Siblings E} {line : Line}

/-- So is a rule that goes on where nothing follows. -/
theorem unblamed_closed : Unblamed siblings.closed := by
  unfold closed
  split
  · trivial
  · rfl

theorem unblamed_finish : Unblamed siblings.finish := unblamed_closed.bind fun _ _ => trivial

/-- So is a node that may stand at the root only. -/
theorem unblamed_place (node : Node E) : Unblamed (siblings.place root line node) := by
  unfold place
  split
  · rename_i cause hcause
    show cause.isTextual = true
    split at hcause
    · cases hcause
    · unfold rootOnly? at hcause
      split at hcause <;> cases hcause <;> rfl
  · trivial

theorem unblamed_placeAll (nodes : List (Node E)) :
    Unblamed (nodes.foldlM (fun siblings node => siblings.place root line node) siblings) := by
  induction nodes generalizing siblings with
  | nil => trivial
  | cons node nodes ih =>
    rw [List.foldlM_cons]
    exact (unblamed_place node).bind fun _ _ => ih

/-- Adding to siblings fails for reasons of the text alone. -/
theorem unblamed_add (outcome : Outcome E) : Unblamed (siblings.add root line outcome) := by
  -- a rule may have lines beneath it while it goes on; everything else must not stand behind such a
  -- rule
  match outcome with
  | .node node =>
    unfold add
    dsimp only
    split
    · unfold addRule
      dsimp only
      split
      · trivial
      · split
        · trivial
        · rfl
    · exact unblamed_closed.bind fun _ _ => unblamed_place node
  | .nodes nodes => exact unblamed_closed.bind fun _ _ => unblamed_placeAll nodes
  | .branch branch => exact unblamed_closed.bind fun _ _ => trivial

end Siblings

/-! ## Computations -/

/-- A computation succeeds, or fails with an error that a text can have. -/
def Parsing.FailsByText (p : Parsing σ α) : Prop := ∀ state, Unblamed (p.outcome state).1

namespace Parsing

variable {p : Parsing σ α} {f : α → Parsing σ β}

theorem failsByText_pure (a : α) : FailsByText (pure a : Parsing σ α) := fun _ => trivial

theorem failsByText_throw {e : SyntaxError} (h : e.cause.isTextual = true) :
    FailsByText (throw e : Parsing σ α) := fun _ => h

/-- A result without a state fails by the text if it does as a result. -/
theorem failsByText_lift {q : Except SyntaxError α} (h : Unblamed q) :
    FailsByText (liftM q : Parsing σ α) := fun _ => h

/-- Computations one after the other fail by the text if each of them does. -/
theorem FailsByText.bind (hp : FailsByText p) (hf : ∀ a, FailsByText (f a)) : FailsByText (p >>= f) := by
  intro state
  rw [outcome_bind]
  have hresult := hp state
  cases hrun : p.outcome state with
  | mk result middle =>
    rw [hrun] at hresult
    cases result with
    | ok a => exact hf a middle
    | error e => exact hresult

/-- A computation that goes on with a result may rely on what this is like. -/
theorem failsByText_lift_bind {P : α → Prop} {q : Except SyntaxError α} (hq : Textual P q)
    (hf : ∀ a, P a → FailsByText (f a)) : FailsByText ((liftM q : Parsing σ α) >>= f) := by
  cases q with
  | ok a => exact hf a hq
  | error e => exact failsByText_throw hq

/-- So do computations for the items of a list. -/
theorem failsByText_mapM {g : γ → Parsing σ α} {xs : List γ} (h : ∀ x ∈ xs, FailsByText (g x)) :
    FailsByText (xs.mapM g) := by
  -- by induction on the items
  induction xs with
  | nil => exact failsByText_pure []
  | cons x xs ih =>
    obtain ⟨hx, hxs⟩ := List.forall_mem_cons.mp h
    rw [List.mapM_cons]
    exact hx.bind fun _ => (ih hxs).bind fun _ => failsByText_pure _

end Parsing

variable {services : Services σ E} {directories : List Text} {line : Line}

/-- A service that fails is reported. -/
theorem Services.failsByText_call (ask : StateM σ (Except Text α)) : FailsByText (call line ask) := by
  intro state
  rw [outcome_call]
  cases (ask state).1 with
  | ok a => trivial
  | error message => rfl

/-- To read the expressions of a construct fails only where the services do. -/
theorem Construct.failsByText_traverse (c : Construct Slot) :
    FailsByText (c.traverse (services.fill line)) := by
  -- by the number of expressions that a construct holds
  match c with
  | .rule _ | .attribute _ (.literal _) _ | .comment _ _ _ | .directive _ | .conditional none
  | .fileImport _ | .cssImport _ => exact failsByText_pure _
  | .attribute _ (.expression slot) _ | .binding _ slot _ | .conditional (some slot) | .whileLoop slot
  | .debug slot => exact (Services.failsByText_call _).bind fun _ => failsByText_pure _
  | .forLoop _ first last _ =>
    exact (Services.failsByText_call _).bind fun _ =>
      (Services.failsByText_call _).bind fun _ => failsByText_pure _
  | .mixinInclude _ arguments =>
    exact (failsByText_mapM fun _ _ => Services.failsByText_call _).bind fun _ => failsByText_pure _
  | .mixinDefinition _ parameters =>
    refine (failsByText_mapM fun parameter _ => ?_).bind fun _ => failsByText_pure _
    obtain ⟨name, _ | slot⟩ := parameter
    · exact failsByText_pure _
    · exact (Services.failsByText_call _).bind fun _ => failsByText_pure _

namespace Reading

/-- To ask the services for all that a line needs fails where they do, or at a faulty parameter. -/
theorem failsByText_resolve {reading : Reading} (hreading : reading.IsTextual) :
    FailsByText (reading.resolve services directories line) := by
  match reading, hreading with
  | .construct c, _ => exact (Construct.failsByText_traverse c).bind fun _ => failsByText_pure _
  | .definition _ parameters, hparameters =>
    refine (failsByText_mapM fun parameter hmem => ?_).bind fun _ => failsByText_pure _
    -- a faulty parameter carries its cause along from the text
    match parameter, hmem with
    | .error cause, hmem => exact failsByText_throw (hparameters cause hmem)
    | .ok ⟨_, none⟩, _ => exact failsByText_pure _
    | .ok ⟨_, some slot⟩, _ => exact (Services.failsByText_call _).bind fun _ => failsByText_pure _
  | .imports entries, _ =>
    refine (failsByText_mapM fun entry _ => ?_).bind fun _ => failsByText_pure _
    match entry with
    | .css _ => exact failsByText_pure _
    | .sheet _ =>
      refine (Services.failsByText_call _).bind fun path => ?_
      by_cases hcss : cssExtension.isSuffixOf path = true
      · rw [if_pos hcss]
        exact failsByText_pure _
      · rw [if_neg hcss]
        exact failsByText_pure _
  | .branch none, _ => exact failsByText_pure _
  | .branch (some _), _ => exact (Services.failsByText_call _).bind fun _ => failsByText_pure _

end Reading

namespace Assembly

/-- Completing an outcome with the nodes beneath it fails only as reading these does. -/
theorem failsByText_finish {root : Bool} {siblings : Siblings E} {nested : Parsing σ (Siblings E)}
    {single : List (Node E) → Outcome E} (hnested : FailsByText nested) :
    FailsByText (do
      let nested ← nested
      (siblings.add root line (single (← nested.finish)) : Parsing σ (Siblings E))) :=
  hnested.bind fun _ => (failsByText_lift Siblings.unblamed_finish).bind fun _ =>
    failsByText_lift (Siblings.unblamed_add _)

mutual

/-- A line and all lines beneath it are assembled, or their text is wrong. -/
theorem failsByText_line : ∀ (line : Line) (root : Bool) (siblings : Siblings E),
    FailsByText (Assembly.line services directories root siblings line)
  | ⟨text, depth, index, offset, filename, children⟩, root, siblings => by
    rw [Assembly.line]
    refine failsByText_lift_bind (Reading.textual_ofLine _ _) fun reading hreading => ?_
    refine (Reading.failsByText_resolve hreading).bind fun outcome => ?_
    match outcome with
    | .node node =>
      dsimp only
      by_cases hcomment : node.construct.isComment = true
      · rw [if_pos hcomment]
        exact failsByText_lift (Siblings.unblamed_add _)
      · rw [if_neg hcomment]
        exact failsByText_finish (failsByText_forest children false {})
    | .nodes nodes => exact failsByText_lift (Siblings.unblamed_add _)
    | .branch branch => exact failsByText_finish (failsByText_forest children false {})

/-- The lines of a forest are assembled, or their text is wrong. -/
theorem failsByText_forest : ∀ (trees : List Line) (root : Bool) (siblings : Siblings E),
    FailsByText (forest services directories root siblings trees)
  | [], _, siblings => by
    rw [forest]
    exact failsByText_pure siblings
  | first :: rest, root, siblings => by
    rw [forest]
    exact (failsByText_line first root siblings).bind fun between => failsByText_forest rest root between

end

end Assembly

/-! ## Documents -/

namespace Document

/-- The nodes of a source are read, or its text or the services are at fault. -/
theorem failsByText_nodes (options : Options) (source : Text) :
    FailsByText (nodes services options source) := by
  unfold nodes
  refine (failsByText_lift (Line.unblamed_ofSource _ _ _)).bind fun lines => ?_
  refine (failsByText_lift (Line.unblamed_nest lines 0)).bind fun nested => ?_
  exact (Assembly.failsByText_forest _ _ _).bind fun _ => failsByText_lift Siblings.unblamed_finish

/-- A document that cannot be read has something wrong in its text, and the error names its file. -/
theorem error_of_parse {fs : FileSystem} {overrides : Overrides} {source : Text} {e : SyntaxError}
    (h : parse fs overrides source = .error e) :
    e.cause.isTextual = true ∧ e.site.filename = overrides.filename := by
  obtain ⟨calls, -, hruns⟩ := traced_nodes (.standard fs) overrides source () []
  have hcause := @failsByText_nodes Unit Expression (.standard fs) overrides.resolve source ()
  have h : ((parseWith (.standard fs) overrides source).outcome ()).1 = .error e := h
  rw [outcome_parseWith] at h
  cases hresult : ((nodes (.standard fs) overrides.resolve source).outcome ()).1 with
  | ok nodes =>
    rw [hresult] at h
    cases h
  | error inner =>
    rw [hresult] at h hruns hcause
    cases h
    -- before the document is closed, its errors name no file
    obtain ⟨hname, -⟩ := hruns.on_of_error fun _ _ hmem => written_of_mem_askings hmem
    refine ⟨hcause, ?_⟩
    show inner.site.filename.or overrides.filename = overrides.filename
    rw [hname]
    rfl

end Document

end Stylesheet
