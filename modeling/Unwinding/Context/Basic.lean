import Unwinding.Config
import Unwinding.Record
import Unwinding.Text.Bounded

/-!
# The context of a thread

A context is everything a thread knows about its regions, calls, guard scopes and
exceptions: five stacks, the record that is in flight, and the escapes that wait to be
reported. Marks and handles are matched by numbers that the context gives out and never
uses again.

Every operation on a context is a `Step`. A step that fails keeps the changes made
before the failure, because the thread shows the state it stopped in: `EStateM` carries
the state on both outcomes. What a step tells observers is kept in `journal` until the
thread hands it on.
-/

namespace Unwinding

/-- The bookkeeping of one thread.

This is all that the runtime keeps of a thread. What the program keeps for itself, its
handles and the visits of its regions, is in the machine, and a step on the context sees
only what it is given of that. The journal holds what the step in progress has told
observers, and is handed on when the context is put back. -/
structure Context where
  regions : Stack Region
  dispatch : Stack Dispatch
  guards : Stack ScopeMark
  frames : Frames
  records : Records
  /-- The number of bytes a message may have. -/
  messageLimit : Nat
  /-- The slot of the kind that reports an abandoned region, if it is not the usual
  one. -/
  escapeKind : Option String
  /-- The abandoned regions that are still to be reported, newest first. -/
  escapes : List Escape
  /-- The record of the exception that is on its way to a region. -/
  inFlight : Option Nat
  /-- The next number for a region or a guard scope. It is a natural number here, and
  counted in 64 bits by a thread, which would have to open a region every nanosecond for
  centuries to run out of numbers. -/
  nextId : Nat
  /-- What the step in progress told observers, newest first. -/
  journal : List Notice

namespace Context

/-- A context with empty stacks, each with its nodes laid out in advance. -/
def new (config : Config) (limits : Limits) : Context where
  regions := (Stack.empty "regions" limits.regions).reserve config.preallocate default
  dispatch :=
    (Stack.empty "dispatch" limits.dispatch).reserve config.preallocate default
  guards := (Stack.empty "guards" limits.guards).reserve config.preallocate default
  frames := .new limits.frames config.preallocate
  records := .new limits.exceptions config.preallocate
  messageLimit := config.messageLimit
  escapeKind := config.escapeKind
  escapes := []
  inFlight := none
  nextId := 1
  journal := []

/-! ## Looking at a context -/

/-- How many entries each of the five stacks holds. This is all that the runtime itself
compares when something is left. -/
def depths (context : Context) : Depths where
  regions := context.regions.depth
  dispatch := context.dispatch.depth
  guards := context.guards.depth
  frames := context.frames.depth
  exceptions := context.records.depth

/-- Whether something catches an exception that is raised now. -/
def hasHandler (context : Context) : Bool :=
  !context.dispatch.isEmpty

/-- The exception of the newest record. -/
def current? (context : Context) : Option Exception :=
  context.records.top?.map fun record => record.toException context.frames

/-- The call trace, innermost first. -/
def trace (context : Context) : String :=
  context.frames.render context.frames.depth

/-- The stacks that hold entries, and whether an escape waits; empty for a context that
may be closed. -/
def live (context : Context) : String :=
  let occupied := context.depths.occupied.text
  if context.escapes.isEmpty then
    occupied
  else if occupied.isEmpty then
    "pending escape"
  else
    occupied ++ ", pending escape"

private def regionLine (region : Region) : String :=
  let sort := if region.visit.explicit then "explicit" else "protected"
  s!"region {region.visit.id} ({sort}) entered at {region.visit.site.text}: " ++
    s!"{region.state.name}\n"

private def escapeLine (escape : Escape) : String :=
  s!"pending escape from region at {escape.site.text}, owned by region {escape.owner}\n"

/-- The whole state of a context as text: depths, regions from the innermost out,
escapes in the order in which they happened, and the call trace. -/
def dump (context : Context) : String :=
  s!"stack depths: {context.depths.text}\n" ++
    String.join (context.regions.live.map regionLine) ++
    String.join (context.escapes.reverse.map escapeLine) ++
    context.trace

end Context

/-- A bookkeeping operation: it changes the context, and may fail with the changes made
so far.

A step that fails keeps what it had changed, because the runtime works on its stacks in
place: the report of the failure shows the state that it stopped in. That is why the
laws about failing steps speak of what is left behind as well. -/
abbrev Step := EStateM Error Context

namespace Context

/-! ## Elementary steps -/

/-- Tells observers something. -/
def note (notice : Notice) : Step Unit :=
  modify fun context => { context with journal := notice :: context.journal }

/-- Takes a number that no mark has had before. -/
def freshId : Step Nat :=
  modifyGet fun context =>
    (context.nextId, { context with nextId := context.nextId + 1 })

/-- Fails because the stacks contradict what a handle remembers of them. The changes
that the step has made so far stay. -/
def fail {α : Type} (cause : Corruption) : Step α :=
  throw (.corrupted cause)

/-- The answer of an operation that may fail, inside a step. -/
def ofExcept {α : Type} : Except Error α → Step α
  | .ok a => pure a
  | .error e => throw e

/-- An operation on the region stack, as a step. Each of the five stacks has its own
such step, so that one that fails names its stack. -/
def onRegions (f : Stack Region → Except Error (Stack Region)) : Step Unit := do
  let regions ← ofExcept (f (← get).regions)
  modify fun context => { context with regions }

/-- An operation on the dispatch stack, as a step. -/
def onDispatch (f : Stack Dispatch → Except Error (Stack Dispatch)) : Step Unit := do
  let dispatch ← ofExcept (f (← get).dispatch)
  modify fun context => { context with dispatch }

/-- An operation on the stack of guard scopes, as a step. -/
def onGuards (f : Stack ScopeMark → Except Error (Stack ScopeMark)) : Step Unit := do
  let guards ← ofExcept (f (← get).guards)
  modify fun context => { context with guards }

/-- An operation on the call trace, as a step. -/
def onFrames (f : Frames → Except Error Frames) : Step Unit := do
  let frames ← ofExcept (f (← get).frames)
  modify fun context => { context with frames }

/-- An operation on the stack of records, as a step. -/
def onRecords (f : Records → Except Error Records) : Step Unit := do
  let records ← ofExcept (f (← get).records)
  modify fun context => { context with records }

/-- Copies the frames that records point to above a depth, before those frames go away.

An exception whose record points to live frames costs nothing as long as those frames
stay; it pays for its own copy only if they go before it does. Every step that takes
frames away therefore begins with this one. -/
def detachAbove (depth : Nat) : Step Unit :=
  modify fun context =>
    { context with records := context.records.detachAbove depth context.frames }

/-- Cuts the frame stack back to a depth, and tells observers about frames that were
left over.

Frames are left over when a callee has not left its own, for example because its handle
was forgotten. They are not worth a failure, since nothing depends on them once the
records above have been detached. -/
def reconcileFrames (depth : Nat) : Step Unit := do
  let found := (← get).frames.depth
  let (outcome, frames) ← ofExcept ((← get).frames.reconcile depth)
  if let .repaired _ innermost := outcome then
    note (.framesLeftOver depth found innermost)
  modify fun context => { context with frames }

/-- Releases the records from a depth on. The record in flight survives if it is to be
kept, at that depth; otherwise nothing is in flight any more once its record is gone.

A record in flight that survives may have others below it that go, such as the records
of exceptions that a handler raised and caught. It is moved down into their place, with
its node, so this never fails for want of room. -/
def releaseRecords (depth : Nat) (keepInFlight : Bool) : Step Unit := do
  match (← get).inFlight with
  | some index =>
      if index < depth then
        onRecords fun records => .ok (records.truncate depth)
      else if keepInFlight then
        onRecords fun records => records.keepOnly depth index
        modify fun context => { context with inFlight := some depth }
      else
        modify fun context => { context with inFlight := none }
        onRecords fun records => .ok (records.truncate depth)
  | none => onRecords fun records => .ok (records.truncate depth)

end Context

end Unwinding
