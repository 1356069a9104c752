import Stylesheet.Proofs.Document.Assembly

/-!
# Lines that are moved

Where a line stands has no bearing on what it says. If it is numbered in another way and shifted to
the right, the same is read from it, at the number and the columns it has then.

- `Relocation`: how lines are numbered anew and shifted. It moves lines, expressions, nodes and
  errors.
- `moved`, `Parsing.Moves`: a result, and a computation, that differs from another one in this only.
  There is one lemma for each way to build a computation (`moves_pure`, `Moves.bind`, …).
- `Reading.ofLine_relocate`: a line that is moved reads the same.
- `Reading.resolve_moves`: what a line puts into a document moves along with the line.
-/

namespace Stylesheet

/-- How lines are moved: the line with number `n` gets the number `line n`, and its text is shifted
by `shift n` columns. -/
structure Relocation where
  line : Int → Int
  shift : Int → Int

variable {σ α β : Type} (ρ : Relocation)

/-! ## What is moved -/

def Site.relocate (site : Site) : Site := { site with line := ρ.line site.line }

def SyntaxError.relocate (e : SyntaxError) : SyntaxError := { e with site := e.site.relocate ρ }

/-- The expression moves with the line that it stands on. -/
def Expression.relocate (e : Expression) : Expression :=
  { e with site := e.site.relocate ρ, offset := e.offset + ρ.shift e.site.line }

namespace Line

mutual

/-- The line and all lines beneath it, moved. -/
def relocate (ρ : Relocation) : Line → Line
  | ⟨text, depth, index, offset, filename, children⟩ =>
    ⟨text, depth, ρ.line index, offset + ρ.shift index, filename, relocateForest ρ children⟩

def relocateForest (ρ : Relocation) : List Line → List Line
  | [] => []
  | line :: lines => relocate ρ line :: relocateForest ρ lines

end

end Line

def AttributeValue.map (f : α → β) : AttributeValue α → AttributeValue β
  | .literal text => .literal text
  | .expression e => .expression (f e)

def Parameter.map (f : α → β) (parameter : Parameter α) : Parameter β :=
  ⟨parameter.name, parameter.defaultValue.map f⟩

/-- The construct with another expression in the place of each. -/
def Construct.map (f : α → β) : Construct α → Construct β
  | .rule selectors => .rule selectors
  | .attribute name value form => .attribute name (value.map f) form
  | .comment text silent body => .comment text silent body
  | .directive text => .directive text
  | .binding name value guarded => .binding name (f value) guarded
  | .mixinDefinition name parameters => .mixinDefinition name (parameters.map (.map f))
  | .mixinInclude name arguments => .mixinInclude name (arguments.map f)
  | .conditional test => .conditional (test.map f)
  | .whileLoop test => .whileLoop (f test)
  | .forLoop name first last inclusive => .forLoop name (f first) (f last) inclusive
  | .debug value => .debug (f value)
  | .fileImport path => .fileImport path
  | .cssImport text => .cssImport text

namespace Node

mutual

/-- The node and all that belongs to it, moved. -/
def relocate (ρ : Relocation) : Node Expression → Node Expression
  | ⟨construct, site, children, branches⟩ =>
    ⟨construct.map (.relocate ρ), site.relocate ρ, relocateAll ρ children, relocateAll ρ branches⟩

def relocateAll (ρ : Relocation) : List (Node Expression) → List (Node Expression)
  | [] => []
  | node :: nodes => relocate ρ node :: relocateAll ρ nodes

end

end Node

def Document.relocate (document : Document Expression) : Document Expression :=
  { document with children := Node.relocateAll ρ document.children }

/-- A result with its value or its error moved. -/
def moved (f : α → β) : Except SyntaxError α → Except SyntaxError β
  | .ok a => .ok (f a)
  | .error e => .error (e.relocate ρ)

/-- A computation does what another one does, with its value or its error moved. -/
def Parsing.Moves (f : α → β) (p : Parsing σ α) (p' : Parsing σ β) : Prop :=
  ∀ state, p'.outcome state = (moved ρ f (p.outcome state).1, (p.outcome state).2)

variable {ρ}

/-! ## Composed computations -/

/-- A result that moves is moved along by what follows on it. -/
theorem moved_bind {γ δ : Type} {f : α → β} {g : γ → δ} {p : Except SyntaxError α}
    {k : α → Except SyntaxError γ} {k' : β → Except SyntaxError δ}
    (h : ∀ a, k' (f a) = moved ρ g (k a)) : (moved ρ f p >>= k') = moved ρ g (p >>= k) := by
  cases p with
  | ok a => exact h a
  | error e => rfl

namespace Parsing

variable {γ δ : Type} {f : α → β} {g : γ → δ} {p : Parsing σ α} {p' : Parsing σ β}

/-- A value on its own moves freely. -/
theorem moves_pure (a : α) : Moves ρ f (pure a : Parsing σ α) (pure (f a)) := fun _ => rfl

/-- An error moves with the line that it names. -/
theorem moves_throw (e : SyntaxError) :
    Moves ρ f (throw e : Parsing σ α) (throw (e.relocate ρ)) := fun _ => rfl

/-- A result without a state moves as a computation if it moves as a result. -/
theorem moves_lift {q : Except SyntaxError α} {q' : Except SyntaxError β} (h : q' = moved ρ f q) :
    Moves ρ f (liftM q : Parsing σ α) (liftM q') := by
  rintro state
  rw [h]
  rfl

/-- Two computations one after the other move if each of them does. The state of the services is not
moved, so the second one starts from the same state. -/
theorem Moves.bind {k : α → Parsing σ γ} {k' : β → Parsing σ δ} (h : Moves ρ f p p')
    (hk : ∀ a, Moves ρ g (k a) (k' (f a))) : Moves ρ g (p >>= k) (p' >>= k') := by
  rintro state
  rw [outcome_bind, outcome_bind, h state]
  -- the second one runs only where the first one has a value
  cases p.outcome state with
  | mk result middle =>
    cases result with
    | ok a => exact hk a middle
    | error e => rfl

/-- Errors that are completed move if the completion does not depend on the line. -/
theorem Moves.adapt {h : SyntaxError → SyntaxError} (hh : ∀ e, (h e).relocate ρ = h (e.relocate ρ))
    (hp : Moves ρ f p p') : Moves ρ f (ExceptT.adapt h p) (ExceptT.adapt h p') := by
  rintro state
  rw [outcome_adapt, outcome_adapt, hp state]
  cases (p.outcome state).1 with
  | ok a => rfl
  | error e => exact Prod.ext (congrArg Except.error (hh e).symm) rfl

/-- Computations for the items of a list move all together. -/
theorem moves_mapM {step : γ → Parsing σ α} {step' : γ → Parsing σ β}
    (h : ∀ c, Moves ρ f (step c) (step' c)) (cs : List γ) :
    Moves ρ (List.map f) (cs.mapM step) (cs.mapM step') := by
  -- by induction on the items: the first one, and then those behind it
  induction cs with
  | nil => exact moves_pure []
  | cons c cs ih =>
    rw [List.mapM_cons, List.mapM_cons]
    refine (h c).bind fun a => ih.bind fun as => ?_
    exact moves_pure (a :: as)

end Parsing

/-! ## Lines -/

namespace Line

variable (line : Line)

theorem text_relocate : (line.relocate ρ).text = line.text := by
  cases line
  rfl

theorem depth_relocate : (line.relocate ρ).depth = line.depth := by
  cases line
  rfl

theorem site_relocate : (line.relocate ρ).site = line.site.relocate ρ := by
  cases line
  rfl

theorem offset_relocate : (line.relocate ρ).offset = line.offset + ρ.shift line.site.line := by
  cases line
  rfl

theorem children_relocate : (line.relocate ρ).children = relocateForest ρ line.children := by
  cases line
  rfl

/-- An error on a line moves with the line. -/
theorem fault_relocate (cause : Cause) :
    (line.relocate ρ).fault cause = (line.fault cause).relocate ρ := by
  cases line
  rfl

theorem relocateForest_eq_map (lines : List Line) :
    relocateForest ρ lines = lines.map (relocate ρ) := by
  induction lines with
  | nil => rfl
  | cons line lines ih => rw [relocateForest, List.map_cons, ih]

mutual

/-- Moving a line changes none of the texts beneath it, which a comment keeps. -/
theorem texts_relocate : ∀ line : Line, (line.relocate ρ).texts = line.texts
  | ⟨_, _, _, _, _, children⟩ => by rw [relocate, texts, texts, forestTexts_relocate children]

theorem forestTexts_relocate : ∀ lines : List Line,
    forestTexts (relocateForest ρ lines) = forestTexts lines
  | [] => rfl
  | line :: lines => by
    rw [relocateForest, forestTexts, forestTexts, texts_relocate line, forestTexts_relocate lines]

end

theorem forbidNesting_relocate (parent : Childless) :
    (line.relocate ρ).forbidNesting parent = moved ρ id (line.forbidNesting parent) := by
  unfold forbidNesting
  rw [children_relocate]
  cases line.children with
  | nil => rfl
  | cons nested rest =>
    rw [relocateForest]
    dsimp only
    rw [fault_relocate]
    rfl

end Line

/-! ## Readings -/

namespace Reading

variable (line : Line)

/-- The construct itself names no line; only the error that stands for a missing one does. -/
theorem ofConstruct?_relocate (cause : Cause) (c? : Option (Construct Slot)) :
    ofConstruct? (line.relocate ρ) cause c? = moved ρ id (ofConstruct? line cause c?) := by
  cases c? with
  | some c => rfl
  | none =>
    unfold ofConstruct?
    rw [Line.fault_relocate]
    rfl

/-- A line without a mark reads the same wherever it stands. -/
theorem ofPlain_relocate : ofPlain (line.relocate ρ) = moved ρ id (ofPlain line) := by
  unfold ofPlain
  rw [Line.text_relocate]
  split
  · exact ofConstruct?_relocate line _ _
  · rfl

theorem ofAttribute_relocate : ofAttribute (line.relocate ρ) = moved ρ id (ofAttribute line) := by
  unfold ofAttribute
  rw [Line.text_relocate]
  split
  · rfl
  · exact ofConstruct?_relocate line _ _

theorem ofBinding_relocate : ofBinding (line.relocate ρ) = moved ρ id (ofBinding line) := by
  unfold ofBinding
  rw [Line.forbidNesting_relocate, Line.text_relocate]
  exact moved_bind fun _ => ofConstruct?_relocate line _ _

theorem ofComment_relocate : ofComment (line.relocate ρ) = moved ρ id (ofComment line) := by
  unfold ofComment
  rw [Line.text_relocate, Line.children_relocate, Line.forestTexts_relocate]
  split <;> rfl

theorem ofDefinition_relocate : ofDefinition (line.relocate ρ) = moved ρ id (ofDefinition line) := by
  unfold ofDefinition
  rw [Line.text_relocate, Line.fault_relocate]
  split <;> rfl

theorem ofInclude_relocate : ofInclude (line.relocate ρ) = moved ρ id (ofInclude line) := by
  unfold ofInclude
  rw [Line.text_relocate, Line.forbidNesting_relocate]
  split
  · rfl
  · refine moved_bind fun _ => ?_
    rw [Line.fault_relocate, Line.fault_relocate]
    split
    · rfl
    · split <;> rfl

/-! ### Directives -/

variable (directive : Directive)

/-- A directive that lacks its value fails on its own line. -/
theorem required_relocate :
    required (line.relocate ρ) directive = moved ρ id (required line directive) := by
  unfold required
  rw [Line.fault_relocate]
  split <;> rfl

theorem ofImport_relocate :
    ofImport (line.relocate ρ) directive = moved ρ id (ofImport line directive) := by
  unfold ofImport
  rw [Line.fault_relocate, Line.forbidNesting_relocate]
  split
  · rfl
  · rfl
  · exact moved_bind fun _ => rfl

theorem ofAlternative_relocate (afterConditional : Bool) :
    ofAlternative afterConditional (line.relocate ρ) directive =
      moved ρ id (ofAlternative afterConditional line directive) := by
  unfold ofAlternative
  split
  · rw [Line.fault_relocate]
    rfl
  · split
    · rfl
    · rfl
    · split
      · rw [Line.fault_relocate]
        rfl
      · rfl

theorem ofDirective_relocate (afterConditional : Bool) :
    ofDirective afterConditional (line.relocate ρ) =
      moved ρ id (ofDirective afterConditional line) := by
  unfold ofDirective
  rw [Line.text_relocate]
  dsimp only
  split
  · rfl
  · -- an import and an alternative look at the lines beneath them, which are moved as well
    exact ofImport_relocate line _
  · exact ofAlternative_relocate line _ afterConditional
  · split
    · rfl
    · -- the cause of a loop that cannot be read is found in the text alone
      rw [Line.fault_relocate]
      rfl
  · rw [required_relocate]
    exact moved_bind fun _ => rfl
  · rw [required_relocate]
    exact moved_bind fun _ => rfl
  · rw [required_relocate, Line.forbidNesting_relocate]
    exact moved_bind fun _ => moved_bind fun _ => rfl

/-! ### All lines -/

/-- A line that is moved reads the same. -/
theorem ofLine_relocate (afterConditional : Bool) :
    ofLine afterConditional (line.relocate ρ) = moved ρ id (ofLine afterConditional line) := by
  unfold ofLine
  rw [Line.text_relocate]
  split
  · rename_i mark _
    -- one lemma for each mark; only the escape is read in place
    match mark with
    | .binding => exact ofBinding_relocate line
    | .mixinInclude => exact ofInclude_relocate line
    | .comment => exact ofComment_relocate line
    | .attribute => exact ofAttribute_relocate line
    | .definition => exact ofDefinition_relocate line
    | .directive => exact ofDirective_relocate line afterConditional
    | .escape =>
      show Except.ok (rule (Text.dropUnit (line.relocate ρ).text)) = _
      rw [Line.text_relocate]
      rfl
  · exact ofPlain_relocate line

end Reading

/-! ## Answers of the services -/

open Parsing

/-- What a line puts into a document, moved. -/
def Outcome.relocate (ρ : Relocation) : Outcome Expression → Outcome Expression
  | .node single => .node (single.relocate ρ)
  | .nodes all => .nodes (Node.relocateAll ρ all)
  | .branch alternative => .branch (alternative.relocate ρ)

/-- A text that is read as an expression keeps the site and the column it is read at, and both are
moved. -/
theorem Expression.read_relocate (t : Text) (site : Site) (offset : Int) :
    read t (site.relocate ρ) (offset + ρ.shift site.line) = (read t site offset).map (.relocate ρ) := by
  unfold read
  dsimp only
  split <;> rfl

namespace Services

variable (line : Line)

/-- A call that answers without looking at the line moves with it: its failure is an error on this
line. -/
theorem call_moves (f : α → β) (answer : Except Text α) :
    Moves ρ f (call line (pure answer) : Parsing σ α)
      (call (line.relocate ρ) (pure (answer.map f))) := by
  cases answer with
  | ok a => exact moves_pure a
  | error message =>
    have hmoves := moves_throw (σ := σ) (f := f) (ρ := ρ) (line.fault (.reported message))
    rw [← Line.fault_relocate] at hmoves
    exact hmoves

variable (fs : FileSystem)

/-- The standard services read an expression where it stands. -/
theorem fill_moves (slot : Slot) :
    Moves ρ (.relocate ρ) ((standard fs).fill line slot : Parsing σ Expression)
      ((standard fs).fill (line.relocate ρ) slot) := by
  have hoffset : (line.relocate ρ).offset + slot.column =
      line.offset + slot.column + ρ.shift line.site.line := by
    rw [Line.offset_relocate]
    omega
  unfold fill
  rw [hoffset, Line.site_relocate]
  show Moves ρ (.relocate ρ) (call line (pure (Expression.read slot.text line.site _)))
    (call (line.relocate ρ) (pure (Expression.read slot.text (line.site.relocate ρ) _)))
  rw [Expression.read_relocate]
  exact call_moves line _ _

/-- The standard services find a stylesheet by its name, wherever the import stands. -/
theorem find_moves (directories : List Text) (name : Text) :
    Moves ρ id ((standard fs).find directories line name : Parsing σ Text)
      ((standard fs).find directories (line.relocate ρ) name) := by
  unfold find
  show Moves ρ id (call line (pure (fs.find name directories))) (call _ (pure _))
  have hsame : (fs.find name directories).map id = fs.find name directories := congrFun Except.map_id _
  have hmoves := call_moves (σ := σ) (ρ := ρ) line id (fs.find name directories)
  rw [hsame] at hmoves
  exact hmoves

end Services

namespace Construct

variable (f : α → β) (c : Construct α)

/-- Other expressions do not make another kind of construct. -/
theorem isConditional_map : (c.map f).isConditional = c.isConditional := by cases c <;> rfl

theorem isComment_map : (c.map f).isComment = c.isComment := by cases c <;> rfl

theorem rootOnly?_map : Siblings.rootOnly? (c.map f) = Siblings.rootOnly? c := by cases c <;> rfl

/-- A construct whose expressions are read one after another moves if each of them does. -/
theorem traverse_moves {f : α → β} {step : Slot → Parsing σ α} {step' : Slot → Parsing σ β}
    (h : ∀ slot, Moves ρ f (step slot) (step' slot)) (c : Construct Slot) :
    Moves ρ (map f) (c.traverse step) (c.traverse step') := by
  -- the cases are those of how many expressions a construct holds: none, one, a list, or two
  match c with
  | .rule _ | .attribute _ (.literal _) _ | .comment _ _ _ | .directive _ | .conditional none
  | .fileImport _ | .cssImport _ => exact moves_pure _
  | .attribute _ (.expression e) _ | .binding _ e _ | .conditional (some e) | .whileLoop e | .debug e =>
    exact (h e).bind fun _ => moves_pure _
  | .mixinDefinition name parameters =>
    refine (moves_mapM (f := Parameter.map f) ?_ parameters).bind fun _ => moves_pure _
    rintro ⟨_, _ | e⟩
    · exact moves_pure _
    · exact (h e).bind fun _ => moves_pure _
  | .mixinInclude name arguments => exact (moves_mapM h arguments).bind fun _ => moves_pure _
  | .forLoop name first last inclusive =>
    exact (h first).bind fun _ => (h last).bind fun _ => moves_pure _

end Construct

theorem Node.relocateAll_eq_map (nodes : List (Node Expression)) :
    relocateAll ρ nodes = nodes.map (relocate ρ) := by
  induction nodes with
  | nil => rfl
  | cons node nodes ih => rw [relocateAll, List.map_cons, ih]

namespace Reading

variable (fs : FileSystem) (directories : List Text) (line : Line)

/-- A parameter moves with its default; a faulty one fails on its line. -/
theorem resolveParameter_moves (parameter : Except Cause (Parameter Slot)) :
    Moves ρ (.map (.relocate ρ))
      (resolveParameter (.standard fs) line parameter : Parsing σ (Parameter Expression))
      (resolveParameter (.standard fs) (line.relocate ρ) parameter) := by
  match parameter with
  | .error cause =>
    unfold resolveParameter
    dsimp only
    rw [Line.fault_relocate]
    exact moves_throw _
  | .ok ⟨name, none⟩ => exact moves_pure _
  | .ok ⟨name, some slot⟩ => exact (Services.fill_moves line fs slot).bind fun _ => moves_pure _

/-- What an entry of an import is found to be does not depend on where the import stands. -/
theorem resolveEntry_moves (entry : ImportEntry) :
    Moves ρ (.map (.relocate ρ))
      (resolveEntry (.standard fs) directories line entry : Parsing σ (Construct Expression))
      (resolveEntry (.standard fs) directories (line.relocate ρ) entry) := by
  match entry with
  | .css text => exact moves_pure _
  | .sheet name =>
    refine (Services.find_moves line fs directories name).bind fun path => ?_
    unfold id
    split
    · exact moves_pure _
    · exact moves_pure _

/-- What a line puts into a document moves along with the line. -/
theorem resolve_moves (reading : Reading) :
    Moves ρ (.relocate ρ)
      (reading.resolve (.standard fs) directories line : Parsing σ (Outcome Expression))
      (reading.resolve (.standard fs) directories (line.relocate ρ)) := by
  unfold resolve
  rw [Line.site_relocate]
  -- a reading asks for expressions, for the defaults of parameters, or for stylesheets, from left
  -- to right
  match reading with
  | .construct c =>
    exact (Construct.traverse_moves (Services.fill_moves line fs) c).bind fun _ => moves_pure _
  | .definition _ parameters =>
    exact (moves_mapM (resolveParameter_moves fs line) parameters).bind fun _ => moves_pure _
  | .imports entries =>
    refine (moves_mapM (resolveEntry_moves fs directories line) entries).bind fun constructs => ?_
    -- the nodes of an import are made from the constructs afterwards, all at the site of the line
    have hnodes : (constructs.map (.map (.relocate ρ))).map
          (fun c => (⟨c, line.site.relocate ρ, [], []⟩ : Node Expression)) =
        Node.relocateAll ρ (constructs.map fun c => ⟨c, line.site, [], []⟩) := by
      rw [Node.relocateAll_eq_map, List.map_map, List.map_map]
      rfl
    rw [hnodes]
    exact moves_pure _
  | .branch none => exact moves_pure _
  | .branch (some test) => exact (Services.fill_moves line fs test).bind fun _ => moves_pure _

end Reading

end Stylesheet
