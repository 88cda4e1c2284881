import Unwinding.Context.Raise
import Unwinding.Event

/-!
# The machine

A thread of a program is run by a machine that takes one small step after another. Its
state holds the process around the thread (`Process`), the thread itself, the code that
waits for the running code to finish (`control`, innermost first), and what happens next
(`focus`).

Nothing of the runtime's bookkeeping lives in `control`: it only knows what the program
knows, the handles in its blocks and the visits of its regions. That the two agree is
what the laws of the library are about.

A step of the machine performs at most one step on the context, so every state of the
context that a program can observe is a state of the machine.
-/

namespace Unwinding

/-! ## What waits -/

/-- A guard scope: its mark once something is registered, and the bodies, newest
first. -/
structure Scope (ν : Type) where
  site : Site
  mark : Option Nat
  bodies : List (Flavor × List (Stmt ν))
  /-- The number of bodies. -/
  count : Nat
  count_eq : count = bodies.length
  /-- Whether the thread was unwinding when the scope was opened. -/
  inUnwinding : Bool

namespace Scope

variable {ν : Type}

private theorem count_nil : 0 = ([] : List (Flavor × List (Stmt ν))).length := rfl

/-- A scope in which nothing is registered. -/
def empty (site : Site) (inUnwinding : Bool) : Scope ν :=
  ⟨site, none, [], 0, count_nil, inUnwinding⟩

/-- Adds a body to a scope with a mark. -/
def register (scope : Scope ν) (mark : Nat) (flavor : Flavor) (body : List (Stmt ν)) :
    Scope ν :=
  { scope with
    mark := some mark
    bodies := (flavor, body) :: scope.bodies
    count := scope.count + 1
    count_eq := by simp [scope.count_eq] }

end Scope

/-- What a block holds for a program: the thread's context, or part of its bookkeeping.
Handles of regions and calls remember whether the thread was unwinding when they were
opened.

A scope has no mark until something is registered in it, because that is when the
runtime begins to know of it. A scope that is dropped before leaves no trace. -/
inductive Handle (ν : Type) where
  | thread
  | region (visit : Visit) (inUnwinding : Bool)
  | call (entry : Depths) (inUnwinding : Bool)
  | guards (scope : Scope ν)

/-- A protected region that is being run: its visit, its clauses, and what becomes of an
exception that none of them catches. -/
structure Protected (ν : Type) where
  visit : Visit
  clauses : List (Clause ν)
  mode : Mode

/-- A guard scope that is being left. -/
structure Leaving (ν : Type) where
  site : Site
  mark : Nat
  /-- Whether the scope is left by a raise or a panic. -/
  unwinding : Bool
  /-- The bodies that have not been looked at, next one first. -/
  bodies : List (Flavor × List (Stmt ν))

/-- A raise whose message is being written. -/
structure Raising where
  kind : Kind
  site : Site
  buffer : Bounded

/-- Code that waits for the code above it.

The list of what waits is the call stack of the program, cut into pieces that matter
here. An unwinding passes it piece by piece, and each piece decides what becomes of
it. -/
inductive Resumption (ν : Type) where
  /-- A block: the word of the statement in progress, the statements after it, its
  handles, and its value. -/
  | block (word : String) (rest : List (Stmt ν)) (handles : List (String × Handle ν))
      (value : Option ν)
  /-- A protected region whose body runs. -/
  | body (region : Protected ν)
  /-- A protected region of which a handler runs. -/
  | handler (region : Protected ν)
  /-- A guard scope of which a body runs. -/
  | guarding (scope : Leaving ν)
  /-- A statement that gives up a handle. -/
  | releasing
  /-- An unwinding that is held up by the handle it drops. -/
  | unwinding (payload : Payload)
  /-- A statement that stops any unwinding. -/
  | attempt (resume : Option (List (Stmt ν)))
  /-- An unwinding that goes on after a block. -/
  | resuming (payload : Payload)
  | loop (times : Nat) (body : List (Stmt ν))
  /-- A message that is being written, and the pieces after the one that runs. -/
  | message (raising : Raising) (rest : List (Piece ν))
  /-- The end of the thread; with `auto`, its context is closed there. -/
  | thread (auto : Bool)

/-- How a thread ended. -/
inductive Stop (ν : Type) where
  | returned (value : Option ν) (shutdown : Option (Except Error Unit))
  | unwound (payload : Payload)
  | halted
  /-- The process has ended; with `silent`, nobody is told about its threads. -/
  | exited (kind : TerminationKind) (silent : Bool)

/-- What happens next.

Code that runs, handles that are dropped and unwindings on their way are told apart by
their constructors, so a law about one of them begins with the shape of the focus. -/
inductive Focus (ν : Type) where
  /-- The innermost block goes on with its next statement, or ends. -/
  | next
  | exec (stmt : Stmt ν)
  /-- The statement in progress has completed, and may have set the value of its
  block. -/
  | complete (value : Option (Option ν))
  /-- What ran has ended with a value. -/
  | deliver (value : Option ν)
  | unwind (payload : Payload)
  /-- The clauses of a region are tried on the exception it has caught. -/
  | offer (region : Protected ν) (exception : Exception)
  /-- A region is left with a value, or with an exception that no clause caught. -/
  | leave (region : Protected ν) (outcome : Except Exception (Option ν))
  | forward (exception : Exception)
  | drop (handle : Handle ν)
  | leaveScope (scope : Leaving ν)
  | write (raising : Raising) (pieces : List (Piece ν))
  | stopped (how : Stop ν)

/-! ## The state -/

/-- What the threads of a process share. -/
structure Process where
  registry : Registry := {}
  /-- The configuration, once it is installed. -/
  config : Option Config := none
  /-- What was printed, newest first. -/
  printed : List String := []
  deriving Inhabited

/-- The state of a thread of a program, between two steps.

The bookkeeping is in `context`, and what a program knows is in `control`, `focus` and
`bindings`. Two things are the thread’s own: how many unwindings are under way, and
whether the runtime has terminated it. -/
structure Machine (ν : Type) extends Process where
  context : Option Context := none
  /-- Whether a step on the context is in progress: the context cannot be used then. -/
  inUse : Bool := false
  /-- Whether the thread has been terminated: handles do no more bookkeeping then. -/
  poisoned : Bool := false
  /-- The number of unwindings in progress. -/
  unwindings : Nat := 0
  bindings : List (String × Exception) := []
  /-- The history of the thread, newest first. -/
  events : List (Event ν) := []
  control : List (Resumption ν)
  focus : Focus ν

namespace Machine

variable {ν : Type}

/-! ## Small changes -/

/-- Adds an event to the history of the thread. -/
def emit (m : Machine ν) (event : Event ν) : Machine ν :=
  { m with events := event :: m.events }

/-- Adds what an observer is told to the history, in its place among the other
events. -/
def note (m : Machine ν) (notice : Notice) : Machine ν :=
  m.emit (.notice notice)

/-- Goes on with something else. -/
def goto (m : Machine ν) (focus : Focus ν) : Machine ν :=
  { m with focus }

/-- Code waits for what runs next. -/
def push (m : Machine ν) (waiting : Resumption ν) : Machine ν :=
  { m with control := waiting :: m.control }

/-- The statement in progress answers with an event and completes. -/
def answer (m : Machine ν) (event : Event ν) : Machine ν :=
  (m.emit event).goto (.complete none)

/-- Begins a block. -/
def enterBlock (m : Machine ν) (body : List (Stmt ν)) : Machine ν :=
  (m.push (.block "" body [] none)).goto .next

/-- Puts an exception into a variable, in place of the one that it held. -/
def assign (m : Machine ν) (name : String) (exception : Exception) : Machine ν :=
  { m with
    bindings := (name, exception) :: m.bindings.filter fun (other, _) => other != name }

/-- The exception that a variable holds. -/
def exception? (m : Machine ν) (name : String) : Option Exception :=
  m.bindings.lookup name

/-! ## Questions -/

/-- Whether the thread unwinds. Code that an unwinding runs asks this too, and is told
that it does: the runtime sees nothing else of how a scope is left. -/
def isPanicking (m : Machine ν) : Bool :=
  0 < m.unwindings

/-- Whether the thread has a context; a context in use is there. -/
def isInitialized (m : Machine ν) : Bool :=
  m.inUse || m.context.isSome

/-- Asks the context something, without changing it. -/
def ask {α : Type} (m : Machine ν) (question : Context → α) : Except Error α :=
  if m.inUse then
    .error (.corrupted .reentered)
  else
    match m.context with
    | some context => .ok (question context)
    | none => .error .contextMissing

/-- The depths of the stacks, or why they cannot be asked for. -/
def depths (m : Machine ν) : Except Error Depths :=
  m.ask Context.depths

/-- The exception of the newest record, none if the context cannot be asked. -/
def current? (m : Machine ν) : Option Exception :=
  match m.ask Context.current? with
  | .ok exception => exception
  | .error _ => none

/-- The call trace, empty if the context cannot be asked. -/
def trace (m : Machine ν) : String :=
  match m.ask Context.trace with
  | .ok text => text
  | .error _ => ""

/-- What the program sees of an exception that it holds. -/
def view (m : Machine ν) (exception : Exception) : ExceptionView :=
  .of m.registry.table exception

/-- All that a thread can ask about itself at once. -/
def state (m : Machine ν) : ThreadState where
  initialized := m.isInitialized
  poisoned := m.poisoned
  depths := m.depths
  trace := m.trace
  current := m.current?.map m.view
  panicking := m.isPanicking

/-! ## Unwinding and termination -/

/-- Begins an unwinding. -/
def unwind (m : Machine ν) (payload : Payload) : Machine ν :=
  { m with unwindings := m.unwindings + 1, focus := .unwind payload }

/-- Stops the innermost unwinding. -/
def caught (m : Machine ν) : Machine ν :=
  { m with unwindings := m.unwindings - 1 }

/-- The configuration in force; asking for it installs the default one if none is
installed. -/
def installed (m : Machine ν) : Config × Machine ν :=
  match m.config with
  | some config => (config, m)
  | none => ({}, { m with config := some {} })

/-- Ends the process: the report is all that is left of the thread. -/
def exit (m : Machine ν) (termination : Termination) (silent : Bool) : Machine ν :=
  { m with
    printed := (termination.report ++ "\n") :: m.printed
    focus := .stopped (.exited termination.kind silent) }

/-- Terminates the thread, in the way the process is configured for.

A terminator that unwinds looks first whether the thread unwinds already, and halts it
then. One that unwinds without looking would panic in the middle of an unwinding, which
ends the process at once; no such terminator is modelled. -/
def terminate (m : Machine ν) (termination : Termination) : Machine ν :=
  let (config, m) := { m with poisoned := true }.installed
  match config.terminator with
  | .unwind =>
      let m := m.emit (.terminated termination)
      if m.isPanicking then m.goto (.stopped .halted) else
        m.unwind (.termination termination)
  | .halt => (m.emit (.terminated termination)).goto (.stopped .halted)
  | .exit => (m.emit (.terminated termination)).exit termination false
  | .exitSilently => m.exit termination true

/-- Terminates the thread because its bookkeeping failed; the report may show the state
of the context. -/
def fatal (m : Machine ν) (error : Error) (dump : Option String) : Machine ν :=
  let kind : Kind :=
    match error with
    | .capacityExceeded _ _ => .stackExhausted
    | _ => .stackCorrupted
  let head := s!"fatal {m.registry.table.name kind}: {error.text}"
  let report :=
    match dump with
    | some text => head ++ "\n" ++ text
    | none => head
  (m.note (.fatal error)).terminate ⟨.fatal, kind, report⟩

/-- Terminates the thread because nothing catches an exception. -/
def uncaught (m : Machine ν) (exception : Exception) : Machine ν :=
  let text := exception.text m.registry.table
  let report := s!"uncaught exception {text}\n{exception.traceText}"
  (m.note (.uncaught text)).terminate ⟨.uncaught, exception.kind, report⟩

/-! ## Steps on the context -/

/-- Puts a context back after a step on it, and hands on what the step told
observers. -/
def store (m : Machine ν) (context : Context) : Machine ν :=
  { m with
    context := some { context with journal := [] }
    events := context.journal.map Event.notice ++ m.events }

/-- Performs a step on the context and goes on with its answer. A step that fails
terminates the thread, with the state it failed in; so does a step while another is in
progress, and a step without a context.

While a message is being written the context is in use, and every other step is refused
as reentered. This is the only way for a context to be there and yet out of reach. -/
def perform {α : Type} (m : Machine ν) (step : Step α)
    (next : Machine ν → α → Machine ν) :
    Machine ν :=
  if m.inUse then
    m.fatal (.corrupted .reentered) none
  else
    match m.context with
    | none => m.fatal .contextMissing none
    | some context =>
        match step context with
        | .ok answer context => next (m.store context) answer
        | .error error context => (m.store context).fatal error (some context.dump)

/-! ## Opening and closing the context -/

/-- What came of the attempt to open a context. -/
inductive Opened where
  | opened
  | refused (error : Error)
  /-- The context would take more memory at once than can be asked for. -/
  | overflowed

/-- The panic of code that asks for too large a piece of memory. -/
def overflow : Payload :=
  .panic (some "capacity overflow")

/-- Opens a context on the thread. The memory for it is asked for before anything else
is looked at. An earlier termination of the thread is forgotten. -/
def openThread (m : Machine ν) (limits : Option Limits) : Opened × Machine ν :=
  let (config, m) := m.installed
  if !config.fitsMemory then
    (.overflowed, m)
  else if m.isInitialized then
    (.refused .contextActive, m)
  else
    let context := Context.new config (limits.getD config.limits)
    (.opened, { m with context := some context, poisoned := false }.note
      .contextCreated)

/-- Closes the context of the thread, and tells what was still live. -/
def closeThread (m : Machine ν) : Except Error Unit × Machine ν :=
  if m.inUse then
    (.error .contextMissing, m)
  else
    match m.context with
    | none => (.error .contextMissing, m)
    | some context =>
        let m := { m with context := none }
        if context.live.isEmpty then
          (.ok (), m.note .contextClosed)
        else
          (.error (.unbalanced context.live),
            m.note (.contextUnbalanced context.depths context.dump))

/-- Drops the handle of the context. After a termination the context goes without a
word. -/
def dropThread (m : Machine ν) : Machine ν :=
  if m.poisoned then
    if m.inUse then m else { m with context := none }
  else
    match m.closeThread with
    | (.ok _, m) => m
    | (.error error, m) => m.note (.closeFailed error)

end Machine

end Unwinding
