import Unwinding.Proofs.Composure

/-!
# Steps of statements

What there is to show of the steps that execute a statement or write the message of a
raise: the machine comes to the same as before (`Machine.Reads`). Statements that ask
something come to their answer, those that have a body enter it, and a raise is on its
way as soon as its message is complete.

## Main results

* `Machine.reads_answer`, `Machine.reads_done`, `Machine.reads_thrown` — how most
  statements end.
* `Machine.reads_raise`, `Machine.reads_write`, `Machine.reads_forward` — raises.
-/

namespace Unwinding

open Plain

variable {ν : Type}

namespace Machine

variable {m : Machine ν} {ledger : List Extent} {pile : Pile} {known : Lineage}
    {clock : Nat}
  {final : Except Thrown (Option ν) × Store ν}
  {follows : Except Thrown (Option (Option ν)) → Plain ν (Option ν)}

/-! ## Answers -/

/-- A statement is done. The evaluator goes on with its value. -/
theorem reads_complete {value : Option (Option ν)} (hFocus : m.focus = .complete value)
    (waits : Waits m.pend .statement clock m.travels m.control follows)
    (comes : (give (.ok value)).meet follows m.reading = final) :
    m.step.Reads clock final := by
  generalize hTravels : m.travels = travels at waits
  generalize hControl : m.control = control at waits
  rw [m.reading_of_control hControl] at comes
  cases waits with
  | @statement clock travels control word rest handles old follows below marked =>
      have hAfter : m.step = { m with
          control := .block word rest handles (value.getD old) :: control
          events := .after word m.depths :: m.events
          focus := .next } := by
        simp only [step, hFocus, complete, hControl, emit, goto]
      exact .of_same hAfter rfl rfl rfl hTravels (.next rfl) (.running below marked)
        comes

/-- A statement that only shows something shows the same on both sides. -/
theorem reads_answer {event : Event ν} {sighting : Sighting ν}
    (hStep : m.step = m.answer event) (hSighting : event.sighting? = some sighting)
    (waits : Waits m.pend .statement clock m.travels m.control follows)
    (comes : (Plain.answer sighting).meet follows m.reading = final) :
    m.step.Reads clock final :=
  .of_same hStep rfl (List.filterMap_cons_some hSighting) rfl rfl (.complete rfl)
    waits comes

/-- A statement that is done at once gives its value. -/
theorem reads_done {value : Option (Option ν)}
    (hStep : m.step = m.goto (.complete value))
    (waits : Waits m.pend .statement clock m.travels m.control follows)
    (comes : (give (.ok value)).meet follows m.reading = final) :
    m.step.Reads clock final :=
  .of_same hStep rfl rfl rfl rfl (.complete rfl) waits comes

/-- The exception in a variable is shown. -/
theorem reads_exception {name : String} (hStep : m.step = m.exec (.exception name))
    (waits : Waits m.pend .statement clock m.travels m.control follows)
    (comes : (showException name).meet follows m.reading = final) :
    m.step.Reads clock final := by
  refine reads_answer hStep ?_ waits comes
  change some (Sighting.exception _) = some (Sighting.exception
    ((m.reading.bindings.lookup name).map fun raised =>
      (raised, m.registry.table.name raised.kind)))
  rw [show m.reading.bindings.lookup name = _ from lookup_raised name m.bindings,
    Option.map_map, Option.map_map]
  rfl

/-- It is asked whether it is of a kind. -/
theorem reads_exceptionIsA {name : String} {ancestor : KindRef}
    (hStep : m.step = m.exec (.exceptionIsA name ancestor))
    (waits : Waits m.pend .statement clock m.travels m.control follows)
    (comes : (askKind name ancestor).meet follows m.reading = final) :
    m.step.Reads clock final := by
  refine reads_answer hStep ?_ waits comes
  change some (Sighting.exceptionIsA _) = some (Sighting.exceptionIsA
    ((m.reading.bindings.lookup name).map fun raised =>
      m.registry.fits raised.kind ancestor))
  rw [show m.reading.bindings.lookup name = _ from lookup_raised name m.bindings,
    Option.map_map]
  rfl

/-- A handle is looked at. -/
theorem reads_inspect {name : String} (hFocus : m.focus = .exec (.inspect name))
    (waits : Waits m.pend .statement clock m.travels m.control follows)
    (comes : (Plain.inspect name).meet follows m.reading = final) :
    m.step.Reads clock final := by
  change (inspectFound (Held.find? name (blocksOf m.control))).meet follows m.reading =
    final at comes
  rw [find?_blocksOf] at comes
  cases hFound : Handle.find? name m.control with
  | none =>
      have hStep : m.step = m.goto (.complete none) := by
        simp only [step, hFocus, exec, hFound]
      rw [hFound] at comes
      exact reads_done hStep waits comes
  | some handle =>
      have hStep : m.step = m.answer (.inspected handle.inspection) := by
        simp only [step, hFocus, exec, hFound]
      rw [hFound] at comes
      exact reads_answer hStep rfl waits comes

/-- The thread is given a configuration. -/
theorem reads_configure {config : Config} (hFocus : m.focus = .exec (.configure config))
    (waits : Waits m.pend .statement clock m.travels m.control follows)
    (comes : (Plain.configure config).meet follows m.reading = final) :
    m.step.Reads clock final := by
  change (configureOver config m.config).meet follows m.reading = final at comes
  cases hConfig : m.config with
  | some installed =>
      have hStep : m.step = m.answer (.configured (.error .alreadyInitialized)) := by
        simp only [step, hFocus, exec, hConfig]
      rw [hConfig] at comes
      exact reads_answer hStep rfl waits comes
  | none =>
      have hStep :
          m.step =
          ({ m with config := some config }.note
          (.initialized m.registry.table.size)).answer
          (.configured (.ok ())) := by
        simp only [step, hFocus, exec, hConfig]
      rw [hConfig] at comes
      exact .of_same hStep rfl rfl rfl rfl (.complete rfl) waits comes

/-- A kind is declared. -/
theorem reads_declare {entry : Registry.Entry}
    (hFocus : m.focus = .exec (.declare entry))
    (waits : Waits m.pend .statement clock m.travels m.control follows)
    (comes : (Plain.declare entry).meet follows m.reading = final) :
    m.step.Reads clock final := by
  change (declared (m.registry.declare entry)).meet follows m.reading = final at comes
  cases hOutcome : m.registry.declare entry with
  | error error =>
      have hStep : m.step = m.answer (.declared (.error error)) := by
        simp only [step, hFocus, exec, hOutcome]
      rw [hOutcome] at comes
      exact reads_answer hStep rfl waits comes
  | ok outcome =>
      obtain ⟨kind, registry, notices⟩ := outcome
      have hStep : m.step = { m with
          registry
          events :=
            .declared (.ok kind) :: (notices.reverse.map Event.notice ++ m.events)
          focus := .complete none } := by
        simp only [step, hFocus, exec, hOutcome, foldl_note_eq, Machine.answer, emit,
          goto]
      rw [hOutcome] at comes
      refine .of_same hStep rfl ?_ rfl rfl (.complete rfl) waits comes
      change Sighting.declared _ ::
        (notices.reverse.map Event.notice ++ m.events).filterMap Event.sighting? = _
      rw [List.filterMap_append, sights_notices]
      rfl

/-- A text is put at the innermost frame, of which the evaluator knows nothing. -/
theorem reads_annotate (h : Composed m ledger pile known) (hPlainly : m.Plainly ledger)
    (hGoesOn : m.step.poisoned = false) {text : String}
    (hFocus : m.focus = .exec (.annotate text))
    (waits : Waits m.pend .statement clock m.travels m.control follows)
    (comes : (Plain.answer .asked).meet follows m.reading = final) :
    m.step.Reads clock final := by
  cases hUse : m.inUse with
  | true =>
      have hStep : m.step = m.answer (.annotated false) := by
        simp [step, hFocus, exec, ask, hUse]
      exact reads_answer hStep rfl waits comes
  | false =>
      cases hContext : m.context with
      | none =>
          have hStep : m.step = m.answer (.annotated false) := by
            simp [step, hFocus, exec, ask, hUse, hContext]
          exact reads_answer hStep rfl waits comes
      | some context =>
          have hStep :
              m.step =
              { m with
                context := some
                  { context with frames := (context.frames.annotate text).2 } }.answer
              (.annotated (context.frames.annotate text).1) := by
            simp [step, hFocus, exec, ask, hUse, hContext]
          rw [m.reading_open hContext] at comes
          have hDeed : m.deed = .annotates text := by
            simp [deed, hFocus, deedOf, hUse, hContext]
          exact h.reads_tame hPlainly hGoesOn hDeed hStep
            (returning?_of_focus (by simp [hFocus])) trivial rfl
            (fun hLands => hLands.elim) rfl rfl (.complete rfl) waits comes

/-! ## Bodies -/

/-- A block of its own is run. -/
theorem reads_block {body : List (Stmt ν)} (hStep : m.step = m.exec (.block body))
    (waits : Waits m.pend .statement clock m.travels m.control follows)
    (comes : (valued (block (runAt clock) (Stmt.evals (runAt clock) body none))).meet
      follows m.reading = final) :
    m.step.Reads clock final := by
  obtain ⟨outer, hTravels⟩ := waits.valued.lands
  rw [hTravels] at waits
  refine .of_same hStep rfl rfl rfl hTravels (.next rfl)
    (.running waits.valued allMarked_nil) ?_
  rw [valued_meet] at comes
  exact comes

/-- A body is run so many times. -/
theorem reads_loop {times : Nat} {body : List (Stmt ν)}
    (hStep : m.step = m.exec (.loop times body))
    (waits : Waits m.pend .statement clock m.travels m.control follows)
    (comes :
      (repeats (block (runAt clock) (Stmt.evals (runAt clock) body none)) times).meet
      follows m.reading = final) :
    m.step.Reads clock final := by
  cases times with
  | zero => exact reads_done hStep waits comes
  | succ times =>
      obtain ⟨outer, hTravels⟩ := waits.valued.lands
      rw [hTravels] at waits
      exact .of_same hStep rfl rfl rfl hTravels (.next rfl)
        (.running (.loop waits) allMarked_nil) comes

/-- Foreign code is run that stops what unwinds out of its body. -/
theorem reads_attempt {body : List (Stmt ν)} {resume : Option (List (Stmt ν))}
    (hStep : m.step = m.exec (.attempt body resume))
    (waits : Waits m.pend .statement clock m.travels m.control follows)
    (comes : ((Stmt.attempt body resume).eval (runAt clock)).meet follows m.reading =
      final) :
    m.step.Reads clock final := by
  obtain ⟨outer, hTravels⟩ := waits.valued.lands
  rw [hTravels] at waits
  refine .of_same hStep rfl rfl rfl hTravels (.next rfl)
    (.running (.attempt waits) allMarked_nil) ?_
  cases resume <;> exact comes

/-! ## Raises -/

/-- An unwinding begins. -/
theorem reads_thrown {payload : Payload} {thrown : Thrown}
    (hStep : m.step = m.unwind payload) (throws : payload.Throws none thrown)
    (waits : Waits m.pend .statement clock m.travels m.control follows)
    (comes : (Plain.throw thrown).meet follows m.reading = final) :
    m.step.Reads clock final := by
  obtain ⟨outer, hTravels⟩ := waits.valued.lands
  rw [hTravels] at waits
  exact .of_same hStep rfl rfl rfl hTravels (.unwind rfl throws) waits.reached comes

/-- An exception in a variable is sent on. -/
theorem reads_rethrow {name : String} (hFocus : m.focus = .exec (.rethrow name))
    (waits : Waits m.pend .statement clock m.travels m.control follows)
    (comes : (Plain.rethrow name).meet follows m.reading = final) :
    m.step.Reads clock final := by
  change (rethrowFound (m.reading.bindings.lookup name)).meet follows m.reading =
    final at comes
  rw [show m.reading.bindings.lookup name = _ from lookup_raised name m.bindings]
    at comes
  cases hFound : m.bindings.lookup name with
  | none =>
      have hStep : m.step = m.answer .nothingToRethrow := by
        simp only [step, hFocus, exec, exception?, hFound]
      rw [hFound] at comes
      exact reads_answer hStep rfl waits comes
  | some exception =>
      have hStep : m.step = m.goto (.forward exception) := by
        simp only [step, hFocus, exec, exception?, hFound]
      rw [hFound] at comes
      exact .of_same hStep rfl rfl rfl rfl (.forward rfl) waits.reached comes

/-- The message of a raise begins to be written. -/
theorem reads_raise (h : Composed m ledger pile known) (hPlainly : m.Plainly ledger)
    (hGoesOn : m.step.poisoned = false) {ref : KindRef} {site : Site}
    {message : List (Piece ν)} (hFocus : m.focus = .exec (.raise ref site message))
    (waits : Waits m.pend .statement clock m.travels m.control follows)
    (comes : (Plain.raise ref site (Piece.write (runAt clock) message)).meet follows
      m.reading = final) :
    m.step.Reads clock final := by
  have hRaise : m.step = m.raise ref site message := by simp only [step, hFocus, exec]
  change
    (raiseKind site (Piece.write (runAt clock) message)
    (ref.resolve? m.registry.slots)).meet follows m.reading = final at comes
  unfold Machine.raise at hRaise
  cases hKind : ref.resolve? m.registry.slots with
  | none =>
      rw [hKind] at hRaise
      rw [hRaise] at hGoesOn
      cases hGoesOn.symm.trans (poisoned_terminate _ _)
  | some kind =>
      rw [hKind] at hRaise comes
      obtain ⟨context, limit, left, hContext, hOk, hAfter⟩ := performed hRaise hGoesOn
      obtain ⟨config, hConfig, -, hLimit⟩ := h.settled.terms context hContext
      obtain ⟨rfl, rfl⟩ : limit = context.messageLimit ∧ context = left := by
        cases hEntry : m.registry.table.entry kind with
        | error error =>
            rw [hEntry] at hOk
            cases hOk
        | ok entry =>
            rw [hEntry] at hOk
            cases hOk
            exact ⟨rfl, rfl⟩
      have hDeed : m.deed = .rests := by simp only [deed, hFocus, deedOf]
      have hSame : (m.reading.config.getD {}).messageLimit = context.messageLimit := by
        rw [show m.reading.config = m.config from rfl, hConfig, hLimit]
        rfl
      change
        ((Piece.write (runAt clock)
        message { limit := (m.reading.config.getD {}).messageLimit }).meet
        (Plain.finishRaise kind site)).meet follows { m.reading with writing := true } =
        final at comes
      rw [hSame, m.reading_open hContext] at comes
      exact h.reads_tame hPlainly hGoesOn hDeed hAfter
        (returning?_of_focus (by simp [hFocus])) trivial rfl
        (fun hLands => hLands.elim) (sights_store m context) rfl (.write rfl)
          waits comes

private theorem reads_finishRaise (h : Composed m ledger pile known)
    (hPlainly : m.Plainly ledger) (hGoesOn : m.step.poisoned = false)
    {raising : Raising}
    (hDeed : m.deed = .raises raising.kind (m.messageOf raising) raising.site)
    (hRunning : m.returning? = none) (hStep : m.step = m.finishRaise raising)
    (waits : Waits m.pend .statement clock m.travels m.control follows)
    (comes : (Plain.finishRaise raising.kind raising.site (.ok raising.buffer)).meet
      follows m.reading = final) :
    m.step.Reads clock final := by
  unfold Machine.finishRaise at hStep
  dsimp only at hStep
  obtain ⟨context, uncaught, left, hContext, hOk, hAfter⟩ := performed hStep hGoesOn
  cases uncaught with
  | some handed =>
      rw [hAfter] at hGoesOn
      cases hGoesOn.symm.trans (poisoned_terminate _ _)
  | none =>
      obtain ⟨outer, hTravels⟩ := waits.valued.lands
      rw [hTravels] at waits
      rw [m.reading_open hContext] at comes
      exact h.reads_tame hPlainly hGoesOn hDeed hAfter hRunning trivial rfl
        (fun hLands => hLands.elim) (sights_store _ left) hTravels
        (.unwind rfl (.raise fun other hOther => (Option.some.inj hOther).symm))
          waits.reached comes

/-- The message of a raise is written piece by piece. -/
theorem reads_write (h : Composed m ledger pile known) (hPlainly : m.Plainly ledger)
    (hGoesOn : m.step.poisoned = false) {raising : Raising} {pieces : List (Piece ν)}
    (hFocus : m.focus = .write raising pieces)
    (waits : Waits m.pend .statement clock m.travels m.control follows)
    (comes :
      ((Piece.write (runAt clock) pieces raising.buffer).meet
      (Plain.finishRaise raising.kind raising.site)).meet follows
      m.reading = final) : m.step.Reads clock final := by
  have hStep : m.step = m.write raising pieces := by simp only [step, hFocus]
  have hRunning : m.returning? = none := returning?_of_focus (by simp [hFocus])
  cases pieces with
  | nil =>
      have hDeed :
          m.deed = .raises raising.kind (m.messageOf raising) raising.site := by
        simp only [deed, hFocus, Raising.finished?]
      exact reads_finishRaise h hPlainly hGoesOn hDeed hRunning hStep waits comes
  | cons piece pieces =>
      cases piece with
      | run body =>
          obtain ⟨outer, hTravels⟩ := waits.valued.lands
          rw [hTravels] at waits
          refine .of_same hStep rfl rfl rfl hTravels (.next rfl)
            (.running (.message waits) allMarked_nil) ?_
          exact comes
      | text text =>
          cases hWrite : raising.buffer.write text with
          | mk buffer fits =>
              cases fits with
              | true =>
                  have hAfter :
                      m.step = m.goto (.write { raising with buffer } pieces) := by
                    simp only [hStep, Machine.write, hWrite]
                  simp only [Piece.write, hWrite] at comes
                  exact .of_same hAfter rfl rfl rfl rfl (.write rfl) waits comes
              | false =>
                  have hAfter : m.step = m.finishRaise { raising with buffer } := by
                    simp only [hStep, Machine.write, hWrite]
                  have hDeed :
                      m.deed = .raises raising.kind
                      (m.messageOf { raising with buffer }) raising.site := by
                    simp only [deed, hFocus, Raising.finished?, hWrite]
                  simp only [Piece.write, hWrite] at comes
                  exact reads_finishRaise h hPlainly hGoesOn hDeed hRunning hAfter waits
                    comes

/-- An exception that was sent on unwinds as one that was thrown. -/
theorem reads_forward (h : Composed m ledger pile known) (hPlainly : m.Plainly ledger)
    (hGoesOn : m.step.poisoned = false) {exception : Exception}
    (hFocus : m.focus = .forward exception)
    {follows : Except Thrown Empty → Plain ν (Option ν)}
    (waits : Waits m.pend .unwinding clock m.travels m.control follows)
    (comes : (give (.error (.raised exception.raised))).meet follows m.reading =
      final) :
    m.step.Reads clock final := by
  have hStep : m.step = m.forward exception := by simp only [step, hFocus]
  obtain ⟨context, uncaught, left, hContext, hOk, hAfter⟩ := performed hStep hGoesOn
  cases uncaught with
  | some handed =>
      rw [hAfter] at hGoesOn
      cases hGoesOn.symm.trans (poisoned_terminate _ _)
  | none =>
      have hDeed : m.deed = .forwards exception := by simp only [deed, hFocus]
      obtain ⟨outer, hTravels⟩ := waits.clears
      rw [hTravels] at waits
      rw [m.reading_open hContext] at comes
      exact h.reads_tame hPlainly hGoesOn hDeed hAfter
        (returning?_of_focus (by simp [hFocus])) trivial rfl
        (fun hLands => hLands.elim) (sights_store m left) hTravels
        (.unwind rfl (.raise fun other hOther => (Option.some.inj hOther).symm))
          waits comes

end Machine

end Unwinding
