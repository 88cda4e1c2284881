import Unwinding.Context.Region

/-!
# Raising, guarding and calling

The remaining steps: an exception is raised or sent on, a guard body is shielded from
the exception that unwinds around it, and a traced call puts its frame on the stack and
takes it off again.
-/

namespace Unwinding.Context

/-! ## Raises -/

/-- The message of a raise: what was written, or what the kind says of itself if that is
nothing. -/
def messageOf (table : KindTable) (kind : Kind) (written : String) : String :=
  if written.isEmpty then table.defaultMessage kind else written

/-- Raises an exception with a message that is already written. If nothing can catch it,
its record stays and the exception is handed back.

There is one place for what is in flight, and a raise takes it without looking at what
was there. A guard body that raises does no harm by this, because its mark has parked
what unwinds around it. A destructor of the program is not shielded in this way. -/
def raise (table : KindTable) (kind : Kind) (site : Site) (written : String) :
    Step (Option Exception) := do
  let message := messageOf table kind written
  let frames := (← get).frames
  onRecords fun records => records.raise kind message site frames
  let context ← get
  if context.hasHandler then
    modify fun context => { context with inFlight := some (context.records.depth - 1) }
    return none
  else
    match context.current? with
    | some exception => return some exception
    | none => throw (.stackUnderflow "exceptions")

/-- Sends an exception on to the regions around; it is handed back if there are none.

What is sent on has left the stacks already, so it is put back with frames of its own.
Where nothing can catch it nothing is put back either, and the caller has to terminate
the thread. -/
def forward (exception : Exception) : Step (Option Exception) := do
  if (← get).hasHandler then
    onRecords fun records => records.readmit exception
    modify fun context => { context with inFlight := some (context.records.depth - 1) }
    return none
  else
    return some exception

/-! ## Guard scopes -/

/-- Marks a guard scope, at the first registration in it. -/
def openScope (site : Site) : Step Nat := do
  let id ← freshId
  onGuards fun guards => guards.place ⟨id, site⟩
  return id

/-- Removes the mark of a guard scope, which has to be the innermost one. -/
def closeScope (id : Nat) : Step Unit := do
  match (← get).guards.top? with
  | none => throw (.stackUnderflow "guards")
  | some mark =>
      if mark.id = id then
        onGuards fun guards => guards.pop.map Prod.snd
      else
        fail (.scopeNotInnermost mark.site)

/-- Shields a guard body: the record in flight is parked, and an exception of the body
ends at the shield.

The mark counts as something that catches an exception. A raise in the body is therefore
let go and comes to the end of the body, where the thread is terminated because a guard
body must not fail. -/
def shield (owner : Nat) : Step Unit := do
  let parked := (← get).inFlight
  onDispatch fun dispatch => dispatch.place (.guard owner parked)
  modify fun context => { context with inFlight := none }

/-! ## Traced calls -/

/-- Enters a traced call, and answers the depths just before it. -/
def enterCall (site : Site) : Step Depths := do
  let entry := (← get).depths
  onFrames fun frames => frames.enter site
  return entry

/-- Leaves a traced call. Frames that were left over above its own are removed; on a
normal return every other stack has to be as deep as it was on entry.

On the way of an exception the other stacks are not compared, since the record of the
exception may lie above what the call found. -/
def leaveCall (entry : Depths) (unwinding : Bool) : Step Unit := do
  detachAbove entry.frames
  reconcileFrames (entry.frames + 1)
  onFrames Frames.leave
  unless unwinding do
    let now := (← get).depths
    unless (now.mismatches entry).isEmpty do
      fail (.callUnbalanced entry now)

end Unwinding.Context
