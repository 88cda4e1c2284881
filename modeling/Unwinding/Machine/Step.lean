import Unwinding.Machine.Handle

/-!
# Steps of the machine

`Machine.step` looks at the focus and does the next thing. A machine that has stopped
stays as it is.
-/

namespace Unwinding.Machine

variable {ν : Type}

/-! ## Raising -/

/-- Raises an exception: its kind is looked up, and then its message is written while
the context is in use. -/
def raise (m : Machine ν) (ref : KindRef) (site : Site) (message : List (Piece ν)) :
    Machine ν :=
  match ref.resolve? m.registry.slots with
  | none => m.fatal .kindNotRegistered none
  | some kind =>
      let start : Step Nat := do
        let _ ← Context.ofExcept (m.registry.table.entry kind)
        return (← get).messageLimit
      m.perform start fun m limit =>
        { m with inUse := true }.goto (.write ⟨kind, site, { limit }⟩ message)

/-- The message of a raise is complete. -/
def finishRaise (m : Machine ν) (raising : Raising) : Machine ν :=
  let m := { m with inUse := false }
  m.perform
    (Context.raise m.registry.table raising.kind raising.site raising.buffer.text)
    fun m uncaught =>
      match uncaught with
      | none => m.unwind .raise
      | some exception => m.uncaught exception

/-- Writes the next piece of a message. Nothing is looked at after a piece that does not
fit. -/
def write (m : Machine ν) (raising : Raising) : List (Piece ν) → Machine ν
  | [] => m.finishRaise raising
  | .text text :: rest =>
      match raising.buffer.write text with
      | (buffer, true) => m.goto (.write { raising with buffer } rest)
      | (buffer, false) => m.finishRaise { raising with buffer }
  | .run body :: rest => (m.push (.message raising rest)).enterBlock body

/-- Sends an exception on to the regions around. -/
def forward (m : Machine ν) (exception : Exception) : Machine ν :=
  m.perform (Context.forward exception) fun m uncaught =>
    match uncaught with
    | none => m.unwind .raise
    | some exception => m.uncaught exception

/-! ## Protected regions -/

/-- Enters the outermost of so many nested regions; the others are its body. -/
def protect (m : Machine ν) (levels : Nat) (site : Site) (mode : Mode)
    (clauses : List (Clause ν)) (body : List (Stmt ν)) : Machine ν :=
  m.perform (Context.enter site false) fun m visit =>
    let m := m.push (.body ⟨visit, clauses, mode⟩)
    match levels with
    | inner + 2 => m.goto (.exec (.protect (inner + 1) site mode clauses body))
    | _ => m.enterBlock body

/-- Tries the clauses of a region in order; the first that fits handles the exception.

This is one step. No code of the program runs in it, though a clause may look up its
kind by code of its own, and what the handlers that are not chosen have captured is
dropped before the chosen handler begins. The region has caught its exception by then
and handles nothing yet, so such code runs in a region that is matching. Runs with such
code are `Consults`. -/
def offer (m : Machine ν) (region : Protected ν) (exception : Exception) : Machine ν :=
  let fits (clause : Clause ν) := m.registry.fits exception.kind clause.kind
  match region.clauses.zipIdx.find? fun (clause, _) => fits clause with
  | none => m.goto (.leave region (.error exception))
  | some (clause, index) =>
      m.perform (Context.beginHandling region.visit) fun m _ =>
        let m :=
          (m.emit (.caught (m.view exception) index)).assign clause.name exception
        (m.push (.handler region)).enterBlock clause.handler

/-- Leaves a region that was not unwound, and says what came of it. -/
def leave (m : Machine ν) (region : Protected ν)
    (outcome : Except Exception (Option ν)) :
    Machine ν :=
  m.perform (Context.leave region.visit false) fun m _ =>
    match outcome, region.mode with
    | .ok value, .run => (m.emit (.result value)).goto (.deliver value)
    | .ok value, .attempt _ => (m.emit (.fulfilled value)).goto (.deliver value)
    | .error exception, .run => m.goto (.forward exception)
    | .error exception, .attempt name =>
        ((m.assign name exception).emit (.unmatched (m.view exception))).goto
          (.deliver none)

/-- An unwinding that the region does not stop leaves it. -/
def passThrough (m : Machine ν) (region : Protected ν) (payload : Payload) :
    Machine ν :=
  if m.poisoned then
    m.goto (.unwind payload)
  else
    m.perform (Context.leave region.visit true) fun m _ => m.goto (.unwind payload)

/-! ## Statements -/

/-- Executes a statement. -/
def exec (m : Machine ν) : Stmt ν → Machine ν
  | .depths => m.answer (.depths m.depths)
  | .state => m.answer (.state m.state)
  | .trace => m.answer (.trace m.trace)
  | .current => m.answer (.current (m.current?.map m.view))
  | .printTrace => { m with printed := m.trace :: m.printed }.goto (.complete none)
  | .say text => m.answer (.say text)
  | .annotate text =>
      match m.ask fun context => context.frames.annotate text with
      | .error _ => m.answer (.annotated false)
      | .ok (done, frames) =>
          let context := m.context.map fun context => { context with frames }
          { m with context }.answer (.annotated done)
  | .value v => m.goto (.complete (some (some v)))
  | .raise kind site message => m.raise kind site message
  | .panic text => m.unwind (.panic text)
  | .rethrow name =>
      match m.exception? name with
      | some exception => m.goto (.forward exception)
      | none => m.answer .nothingToRethrow
  | .exception name => m.answer (.exception ((m.exception? name).map m.view))
  | .exceptionIsA name ancestor =>
      m.answer (.exceptionIsA
        ((m.exception? name).map fun exception => m.registry.fits exception.kind
          ancestor))
  | .protect levels site mode clauses body => m.protect levels site mode clauses body
  | .block body => m.enterBlock body
  | .loop 0 _ => m.goto (.complete none)
  | .loop (times + 1) body => (m.push (.loop times body)).enterBlock body
  | .attempt body resume => (m.push (.attempt resume)).enterBlock body
  | .acquire _ _ 0 => m.goto (.complete none)
  | .acquire name opening (times + 1) =>
      m.acquire name opening fun m => m.goto (.exec (.acquire name opening times))
  | .release name how => m.release name how
  | .guard scope flavor body => m.registerGuard scope flavor body
  | .inspect name =>
      match Handle.find? name m.control with
      | some handle => m.answer (.inspected handle.inspection)
      | none => m.goto (.complete none)
  | .configure config =>
      match m.config with
      | some _ => m.answer (.configured (.error .alreadyInitialized))
      | none =>
          ({ m with config := some config }.note
            (.initialized m.registry.table.size)).answer
            (.configured (.ok ()))
  | .declare entry =>
      match m.registry.declare entry with
      | .error error => m.answer (.declared (.error error))
      | .ok (kind, registry, notices) =>
          (notices.foldl note { m with registry }).answer (.declared (.ok kind))
  | .sealKinds => { m with registry := m.registry.sealed }.goto (.complete none)
  | .isA candidate ancestor => m.answer (.isA (m.registry.isA candidate ancestor))
  | .listKinds => m.answer (.kinds m.registry.table.rows)

/-! ## Blocks and what waits below them -/

/-- The innermost block goes on with its next statement; after the last one it drops its
handles, newest first, and ends with its value. Where a handle was dropped for other
code, that code goes on. -/
def proceed (m : Machine ν) : Machine ν :=
  match m.control with
  | .block _ (stmt :: rest) handles value :: below =>
      { m with control := .block stmt.word rest handles value :: below }.goto
        (.exec stmt)
  | .block word [] ((_, handle) :: handles) value :: below =>
      { m with control := .block word [] handles value :: below }.goto (.drop handle)
  | .block _ [] [] value :: below => { m with control := below }.goto (.deliver value)
  | .releasing :: below => { m with control := below }.goto (.complete none)
  | .unwinding payload :: below => { m with control := below }.goto (.unwind payload)
  | _ => m.goto (.stopped .halted)

/-- The statement in progress has completed. -/
def complete (m : Machine ν) (value : Option (Option ν)) : Machine ν :=
  match m.control with
  | .block word rest handles old :: below =>
      ({ m with control := .block word rest handles (value.getD old) :: below }.emit
        (.after word m.depths)).goto .next
  | _ => m.goto .next

/-- What ran has ended with a value, and the code below it goes on. -/
def deliver (m : Machine ν) (value : Option ν) : Machine ν :=
  match m.control with
  | [] => m.goto (.stopped (.returned value none))
  | waiting :: below =>
      let popped := { m with control := below }
      match waiting with
      | .block _ _ _ _ => m.goto (.complete (some value))
      | .body region =>
          popped.perform (Context.claimEscape m.registry.slots region.visit)
            fun m escape =>
            match escape with
            | none => m.goto (.leave region (.ok value))
            | some exception => m.goto (.offer region exception)
      | .handler region => popped.goto (.leave region (.ok value))
      | .guarding scope =>
          popped.perform (Context.popDispatch scope.mark .guard) fun m _ =>
            m.goto (.leaveScope scope)
      | .releasing => popped.goto (.complete none)
      | .unwinding payload => popped.goto (.unwind payload)
      | .attempt _ => popped.answer (.completed value)
      | .resuming payload => popped.unwind payload
      | .loop 0 _ => popped.goto (.complete none)
      | .loop (times + 1) body => (popped.push (.loop times body)).enterBlock body
      | .message raising rest => popped.goto (.write raising rest)
      | .thread auto =>
          if auto then
            let (outcome, m) := popped.closeThread
            m.goto (.stopped (.returned value (some outcome)))
          else
            popped.goto (.stopped (.returned value none))

/-- An unwinding passes the code that waits, innermost first. -/
def propagate (m : Machine ν) (payload : Payload) : Machine ν :=
  match m.control with
  | [] => m.goto (.stopped (.unwound payload))
  | waiting :: below =>
      let popped := { m with control := below }
      match waiting with
      | .block _ _ [] _ => popped.goto (.unwind payload)
      | .block word _ ((_, handle) :: handles) value =>
          ((popped.push (.block word [] handles value)).push (.unwinding payload)).goto
            (.drop handle)
      | .body region =>
          match payload with
          | .raise =>
              popped.caught.perform (Context.catchInFlight region.visit)
                fun m exception =>
                m.goto (.offer region exception)
          | _ => popped.passThrough region payload
      | .handler region => popped.passThrough region payload
      | .guarding scope => popped.guardFailed scope payload
      | .releasing => popped.goto (.unwind payload)
      | .unwinding _ => popped.goto (.stopped .halted)
      | .attempt resume =>
          let m := popped.caught.emit (.unwound payload)
          match resume with
          | none => m.goto (.complete none)
          | some between => (m.push (.resuming payload)).enterBlock between
      | .resuming _ => popped.goto (.unwind payload)
      | .loop _ _ => popped.goto (.unwind payload)
      | .message _ _ => { popped with inUse := false }.goto (.unwind payload)
      | .thread auto =>
          (if auto then popped.dropThread else popped).goto
            (.stopped (.unwound payload))

/-- One step. -/
def step (m : Machine ν) : Machine ν :=
  match m.focus with
  | .next => m.proceed
  | .exec stmt => m.exec stmt
  | .complete value => m.complete value
  | .deliver value => m.deliver value
  | .unwind payload => m.propagate payload
  | .offer region exception => m.offer region exception
  | .leave region outcome => m.leave region outcome
  | .forward exception => m.forward exception
  | .drop handle => m.drop handle
  | .leaveScope scope => m.leaveScope scope
  | .write raising pieces => m.write raising pieces
  | .stopped _ => m

end Unwinding.Machine
