import Unwinding.Context.Basic

/-!
# Entering and leaving regions

The steps of a region's life. `enter` pushes the marks of a region, `leave` removes them
and everything the region put on the stacks, and checks that the stacks are as deep as
they were on entry. `abandon` is for an explicit region whose handle went away without
`leave`: it cuts all stacks back, and the innermost protected region whose body still
runs will report the escape, once, when that body returns (`claimEscape`).
-/

namespace Unwinding.Context

/-! ## States -/

/-- Moves a region to another state. Only the innermost region changes its state. -/
def setState (visit : Visit) (state : RegionState) : Step Unit := do
  match (← get).regions.top? with
  | some region =>
      if region.visit.id = visit.id then
        note (.regionMoved region.visit.id region.visit.site region.state state)
        modify fun context =>
          { context with
            regions := context.regions.modifyTop fun top => { top with state } }
      else
        fail (.regionNotInnermost visit.id visit.site region.visit.id region.visit.site)
  | none => fail (.regionMissing visit.id visit.site)

/-! ## Entry -/

/-- Enters a region: its mark, for a protected region its dispatch mark, and its frame.

The visit remembers how deep the stacks were just before, and that is all that leaving
the region goes by. An explicit region catches nothing, so it has no dispatch mark. -/
def enter (site : Site) (explicit : Bool) : Step Visit := do
  let entry := (← get).depths
  let id ← freshId
  let visit : Visit := ⟨id, site, entry, explicit⟩
  onRegions fun regions => regions.place ⟨visit, .entered⟩
  unless explicit do
    onDispatch fun dispatch => dispatch.place (.region id)
  onFrames fun frames => frames.enter site
  note (.regionMoved id site .outside .entered)
  unless explicit do
    setState visit .dispatching
  return visit

/-! ## Catching -/

/-- Takes the exception in flight at the region it has arrived at.

The record stays where it is, and is given back when the region is left. So the handler
finds it on the stack. -/
def catchInFlight (visit : Visit) : Step Exception := do
  setState visit .matching
  match (← get).inFlight with
  | none => fail (.noRecord visit.site)
  | some index =>
      modify fun context => { context with inFlight := none }
      match (← get).records.get? index with
      | none => fail (.recordBeyond index)
      | some record => return record.toException (← get).frames

/-- Removes a dispatch mark, which has to be the innermost one. The mark of a guard body
gives back the record that was in flight when the body began.

The owner and the purpose of the mark are both looked at: the number alone would not
tell a region from a guard body. -/
def popDispatch (owner : Nat) (purpose : Purpose) : Step Unit := do
  match (← get).dispatch.top? with
  | none => throw (.stackUnderflow "dispatch")
  | some mark =>
      let found : Purpose := if mark.isGuard then .guard else .region
      if mark.owner = owner ∧ found = purpose then
        onDispatch fun dispatch => dispatch.pop.map Prod.snd
        if let .guard _ parked := mark then
          modify fun context => { context with inFlight := parked }
      else
        fail (.dispatchMismatch purpose owner found mark.owner)

/-- A clause of the region has matched: exceptions of its handler go to the regions
around it. -/
def beginHandling (visit : Visit) : Step Unit := do
  popDispatch visit.id .region
  setState visit .handling

/-! ## Escapes -/

/-- Takes the newest waiting escape, if the given region is the one to report it.

Only the newest one is looked at. That finds the escape of a region as long as no other
region is to report one that was added later. -/
def takeEscape (owner : Nat) : Step (Option Escape) := do
  match (← get).escapes with
  | escape :: older =>
      if escape.owner = owner then
        modify fun context => { context with escapes := older }
        return some escape
      else
        return none
  | [] => return none

/-- The protected region that reports an escape: the innermost one whose body runs. -/
def reporter? (context : Context) : Option Nat :=
  (context.regions.live.find? fun region =>
    !region.visit.explicit && region.state == .dispatching).map
      fun region => region.visit.id

/-- An explicit region is gone without having been left.

All stacks are cut back first, so that the region that reports the escape is looked for
among those that are still open. Two escapes in a row of one owner are one: the first is
kept, and the second is only told of. -/
def abandon (visit : Visit) : Step Unit := do
  let entry := visit.entry
  note (.regionUnclosed visit.site ((← get).depths.mismatches entry))
  releaseRecords entry.exceptions false
  detachAbove entry.frames
  onRegions fun regions => .ok (regions.truncate entry.regions)
  onDispatch fun dispatch => .ok (dispatch.truncate entry.dispatch)
  onGuards fun guards => .ok (guards.truncate entry.guards)
  reconcileFrames entry.frames
  match reporter? (← get) with
  | none => fail (.escapeUnreported visit.site)
  | some owner =>
      if ((← get).escapes.head?.map Escape.owner) = some owner then
        note (.escapeRepeated owner visit.site)
      else
        modify fun context =>
          { context with escapes := ⟨visit.site, owner⟩ :: context.escapes }

/-- What the record of an escape says. -/
def escapeText (escape : Escape) : String :=
  s!"control left the region entered at {escape.site.text} without closing it"

/-- The body of a protected region has returned: an escape that the region has to report
becomes an exception, which the region catches at once.

The exception is raised and caught in one step. Nothing unwinds, and no code of the
program runs in between. -/
def claimEscape (slots : Slots) (visit : Visit) : Step (Option Exception) := do
  match ← takeEscape visit.id with
  | none => return none
  | some escape =>
      let context ← get
      let kind := (context.escapeKind.bind slots.get?).getD .illegalEscape
      let buffer : Bounded := { limit := context.messageLimit }
      let message := (buffer.write (escapeText escape)).1.text
      onRecords fun records => records.raise kind message escape.site context.frames
      modify fun context => { context with inFlight := some (context.records.depth - 1)
        }
      note (.escapeReported visit.site escape.site)
      return some (← catchInFlight visit)

/-! ## Exit -/

/-- Removes the dispatch mark of a region that still has one on top. -/
def dropDispatch (visit : Visit) : Step Unit := do
  if let some mark := (← get).dispatch.top? then
    if !visit.explicit && mark.owner == visit.id then
      onDispatch fun dispatch => dispatch.pop.map Prod.snd

/-- Leaves a region, normally or by an exception or a panic. An exception keeps its
record, which then lies just above what the region found on entry.

The order matters. Records go before frames, so that none is detached that is released
anyway; and the frames that a record in flight still needs are copied before they go.
What is compared in the end is how deep the stacks are, and no more. -/
def leave (visit : Visit) (unwinding : Bool) : Step Unit := do
  setState visit .cleanup
  if let some escape ← takeEscape visit.id then
    note (.escapeDropped escape.site visit.site)
  dropDispatch visit
  let entry := visit.entry
  releaseRecords entry.exceptions unwinding
  detachAbove entry.frames
  let top := (← get).regions.top?
  onRegions fun regions => regions.pop.map Prod.snd
  onFrames Frames.leave
  if let some region := top then
    note (.regionMoved region.visit.id region.visit.site region.state .outside)
  let context ← get
  let carried := unwinding && context.inFlight == some entry.exceptions
  let now := context.depths
  let exit := if carried then { now with exceptions := now.exceptions - 1 } else now
  unless (exit.mismatches entry).isEmpty do
    fail (.regionUnbalanced visit.site entry exit)

end Unwinding.Context
