import Stylesheet.Proofs.Document.Calls

/-!
# Errors of a document

Whatever goes wrong with a document, the error names the document's file and one of its lines that
are not blank. If a service has thrown something, the error has the message of what was thrown, and
is on the line that was being read.

- `Services.Throwing.Throws`: what a line asks makes a service throw a failure.
- `WrittenLine.exists_of_mem_ofSource`: the lines that are not blank, by their positions in the
  source.
- `Document.site_of_runs`: where the error of a document is.
- `Document.error_of_throwing`: the error of a document, for all services that may throw anything.
-/

namespace Stylesheet

open Parsing Services

variable {σ E : Type}

/-- What a line asks makes the services throw a failure. -/
def Services.Throwing.Throws (throwing : Throwing σ E) (directories : List Text) (line : Line) :
    Ask → σ → Failure → σ → Prop
  | .expression _ slot, state, failure, next =>
    throwing.parse (line.request slot) state = (.error failure, next)
  | .sheet name, state, failure, next =>
    throwing.locate name directories state = (.error failure, next)

/-- An answer that is the message of a failure is given where this failure was thrown. -/
theorem Services.Failure.of_mapError {α : Type} {thrown : Except Failure α × σ} {message : Text}
    {next : σ} (h : (thrown.1.mapError Failure.message, thrown.2) = (.error message, next)) :
    ∃ failure, thrown = (.error failure, next) ∧ failure.message = message := by
  obtain ⟨result, after⟩ := thrown
  cases result with
  | ok a => cases h
  | error failure =>
    cases h
    exact ⟨failure, rfl, rfl⟩

/-- A call that was refused is one that has thrown. -/
theorem Line.Puts.throws {throwing : Throwing σ E} {directories : List Text} {line : Line} {ask : Ask}
    {state next : σ} {call : Call E} {message : Text}
    (h : line.Puts (.ofThrowing throwing) directories ask state call next)
    (hrefused : call.refusal? = some message) :
    ∃ failure, throwing.Throws directories line ask state failure next ∧ failure.message = message := by
  cases h with
  | @expression _ _ _ _ answer h =>
    cases answer with
    | ok e => cases hrefused
    | error refusal =>
      cases hrefused
      exact Failure.of_mapError h
  | @sheet _ _ _ answer h =>
    cases answer with
    | ok path => cases hrefused
    | error refusal =>
      cases hrefused
      exact Failure.of_mapError h

/-- A line that is not blank has a position in its source. -/
theorem WrittenLine.exists_of_mem_ofSource {source : Text} {firstLine : Int} {filename : Option Text}
    {line : WrittenLine} (h : line ∈ ofSource source firstLine filename) :
    ∃ (position : Nat) (physical : PhysicalLine),
      (PhysicalLine.ofSource source)[position]? = some physical ∧ physical.isBlank = false ∧
        line.site = ⟨Number.plus firstLine position, filename⟩ := by
  obtain ⟨⟨physical, position⟩, hmem, rfl⟩ := List.mem_map.mp h
  obtain ⟨hentry, hblank⟩ := List.mem_filter.mp hmem
  exact ⟨position, physical, List.mem_zipIdx_iff_getElem?.mp hentry, by simpa using hblank, rfl⟩

namespace Document

/-- An error that ends a run of the calls for a document names, once the document is closed, its file
and one of its lines that are not blank. -/
theorem site_of_runs {services : Services σ E} {directories : List Text} {overrides : Overrides}
    {source : Text} {state final : σ} {calls : List (Call E)}
    {result : Except SyntaxError (List (Node E))} {e : SyntaxError}
    (hruns : Runs services directories
      (WrittenLine.ofSource source overrides.resolve.firstLine overrides.filename)
      (askings overrides source) state calls result final)
    (h : close overrides result = .error e) :
    ∃ (position : Nat) (physical : PhysicalLine),
      (PhysicalLine.ofSource source)[position]? = some physical ∧ physical.isBlank = false ∧
        e.site = ⟨Number.plus overrides.resolve.firstLine position, overrides.filename⟩ := by
  cases result with
  | ok nodes => cases h
  | error inner =>
    cases h
    obtain ⟨hname, line, hline, hnumber⟩ :=
      hruns.on_of_error fun _ _ hmem => written_of_mem_askings hmem
    obtain ⟨position, physical, hposition, hblank, hsite⟩ :=
      WrittenLine.exists_of_mem_ofSource hline
    refine ⟨position, physical, hposition, hblank, ?_⟩
    -- before the document is closed, its errors name no file
    rw [hsite] at hnumber
    show Site.mk inner.site.line (inner.site.filename.or overrides.filename) = _
    rw [hname, ← hnumber]
    rfl

/-- The error of a document that cannot be read names its file and one of its lines that are not
blank, numbered from the first line's number on. If a call of a service is refused, then because the
service has thrown something; no call follows, the message of the error is the message of what was
thrown, and the error is on the line whose turn it was to ask. -/
theorem error_of_throwing (throwing : Throwing σ E) (overrides : Overrides) (source : Text)
    (state : σ) :
    ∃ result final calls,
      (parseWith (.ofThrowing throwing) overrides source).outcome state = (result, final) ∧
      (parseWith (Services.ofThrowing throwing).recorded overrides source).outcome (state, []) =
        (result, final, calls) ∧
      (∀ e, result = .error e → ∃ (position : Nat) (physical : PhysicalLine),
        (PhysicalLine.ofSource source)[position]? = some physical ∧ physical.isBlank = false ∧
          e.site = ⟨Number.plus overrides.resolve.firstLine position, overrides.filename⟩) ∧
      ∀ front call back message, calls = front ++ call :: back → call.refusal? = some message →
        back = [] ∧ ∃ line ask failure before e,
          (askings overrides source)[front.length]? = some (line, ask) ∧
          throwing.Throws overrides.resolve.searchPath line ask before failure final ∧
          result = .error e ∧ e.message = failure.message ∧ e.site = line.site := by
  obtain ⟨result, final, calls, hruns, hplain, hnoted⟩ :=
    runs_of_parseWith (.ofThrowing throwing) overrides source state
  refine ⟨_, final, calls, hplain, hnoted, fun e he => site_of_runs hruns he, ?_⟩
  · rintro front call back message rfl hrefused
    obtain ⟨hlast, line, ask, before, hturn, hputs, rfl⟩ := hruns.refused_last hrefused
    obtain ⟨failure, hthrows, rfl⟩ := hputs.throws hrefused
    refine ⟨hlast, line, ask, failure, before, _, hturn, hthrows, rfl, rfl, ?_⟩
    -- the line knows the file that the error is given
    have hwritten := written_of_mem_askings (List.mem_of_getElem? hturn)
    have hname := WrittenLine.filename_of_mem_ofSource hwritten
    show Site.mk line.index overrides.filename = line.site
    rw [← hname]
    rfl

/-- Services that count their calls, give back expressions as they are, and throw a syntax error of
another document where an expression is the given word. -/
def refusing (word : Text) : Throwing Nat Text where
  parse request := fun count =>
    if request.text = word then (.error (.fault ⟨.reported "bad word", ⟨999, some "fragment"⟩⟩), count + 1)
    else (.ok request.text, count + 1)
  locate name _ := fun count => (.ok name, count + 1)

/-- The theorem for a document of whose three expressions the second one is refused. -/
theorem error_of_foreign_fault :
    ∃ line before failure e, line.site = ⟨8, some "f/g"⟩ ∧
      (refusing "y").Throws ["f".toList, ['.']] line (.expression .attributeValue ⟨"y", 5⟩) before
        failure 2 ∧
      (parseWith (.ofThrowing (refusing "y")) { filename := some "f/g", line := some 5 }
        ":a= x\n\nb\n  :cd= y\n:e= z").outcome 0 = (.error e, 2) ∧
      e.message = failure.message ∧ e.site = ⟨8, some "f/g"⟩ := by
  have hcalls : ((parseWith (Services.ofThrowing (refusing "y")).recorded
      { filename := some "f/g", line := some 5 }
      ":a= x\n\nb\n  :cd= y\n:e= z").outcome (0, [])).2.2.map Call.refusal? =
        [none, some "bad word".toList] := by
    decide +kernel
  have hfinal : ((parseWith (Services.ofThrowing (refusing "y")).recorded
      { filename := some "f/g", line := some 5 }
      ":a= x\n\nb\n  :cd= y\n:e= z").outcome (0, [])).2.1 = 2 := by
    decide +kernel
  have hasked : ((askings { filename := some "f/g", line := some 5 }
      ":a= x\n\nb\n  :cd= y\n:e= z")[1]?.map fun (line, ask) => (line.site, ask)) =
        some (⟨8, some "f/g"⟩, .expression .attributeValue ⟨"y", 5⟩) := by
    decide +kernel
  obtain ⟨result, final, calls, hplain, hnoted, -, hrefused⟩ := error_of_throwing (refusing "y")
    { filename := some "f/g", line := some 5 } ":a= x\n\nb\n  :cd= y\n:e= z" 0
  rw [hnoted] at hcalls hfinal
  obtain ⟨first, rest, rfl, hfirst, hrest⟩ := List.map_eq_cons_iff.mp hcalls
  obtain ⟨second, _, rfl, hsecond, -⟩ := List.map_eq_cons_iff.mp hrest
  obtain ⟨-, line, ask, failure, before, e, hturn, hthrows, rfl, hmessage, hsite⟩ :=
    hrefused [first] second _ _ rfl hsecond
  have hfinal : final = 2 := hfinal
  rw [show ([first] : List (Call Text)).length = 1 from rfl] at hturn
  rw [hturn] at hasked
  obtain ⟨hline, hask⟩ := Prod.mk.inj (Option.some.inj hasked)
  have hline : line.site = ⟨8, some "f/g"⟩ := hline
  have hask : ask = .expression .attributeValue ⟨"y", 5⟩ := hask
  rw [hfinal, hask] at hthrows
  rw [hfinal] at hplain
  exact ⟨line, before, failure, e, hline, hthrows, hplain, hmessage, hsite.trans hline⟩

end Document

end Stylesheet
