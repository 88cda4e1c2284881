import Unwinding.Proofs.Nesting
import Unwinding.Proofs.Operations

/-!
# What observers are told of regions

A region tells observers each time it goes to another state, so the history of a thread
holds the life of every region. A step of a machine performs at most one operation on
its context, and what the operation tells of regions is known from its deed:
`Deed.moved` lists it, the newest news first.

The code of a protected region shows how far the region is as well: its body or a
handler waits or runs, its clauses are tried, or it is about to be left. `Stage` names
these, and `Restages` says what a deed does to the stages of all regions that code is
in.

## Main results

* `tells_enter`, `tells_leave`, `tells_catchInFlight`, `tells_claimEscape`,
  `tells_beginHandling` — what operations tell.
* `Machine.shows_step` — what a step tells, and what it does to the stages; the one
  place where the steps are gone through.
* `Machine.hasToldAll_step` — between two steps nothing is kept back.
-/

namespace Unwinding

open Context

variable {ν : Type}

/-! ## News of regions -/

/-- The region that a notice is about, and the state it has gone to. -/
def Notice.moved? : Notice → Option (Nat × RegionState)
  | .regionMoved id _ _ state => some (id, state)
  | _ => none

/-- The region that an event tells of, and the state it goes to. -/
def Event.moved? : Event ν → Option (Nat × RegionState)
  | .notice news => news.moved?
  | _ => none

/-- What the step in progress has told of regions, newest first. -/
def Context.told (context : Context) : List (Nat × RegionState) :=
  context.journal.filterMap Notice.moved?

/-- What a thread has told of regions, newest first. -/
def Machine.told (m : Machine ν) : List (Nat × RegionState) :=
  m.events.filterMap Event.moved?

private theorem Machine.told_store (m : Machine ν) (context : Context) :
    (m.store context).told = context.told ++ m.told := by
  change (context.journal.map Event.notice ++ m.events).filterMap Event.moved? = _
  rw [List.filterMap_append, List.filterMap_map]
  exact congrArg (· ++ m.told) (congrArg (List.filterMap · context.journal) rfl)

/-- The state of a region as soon as it has been entered. -/
def Visit.opening (visit : Visit) : RegionState :=
  if visit.explicit = true then .entered else .dispatching

/-- What a deed tells of regions, newest first. -/
def Deed.moved : Deed → List (Nat × RegionState)
  | .enters visit =>
      if visit.explicit = true then [(visit.id, .entered)] else
        [(visit.id, .dispatching), (visit.id, .entered)]
  | .leaves visit _ _ => [(visit.id, .outside), (visit.id, .cleanup)]
  | .catches visit _ => [(visit.id, .matching)]
  | .reports visit _ => [(visit.id, .matching)]
  | .handles visit _ _ => [(visit.id, .handling)]
  | _ => []

/-! ## What operations tell -/

section

variable {α β : Type} {context : Context}

/-- What is said of the answers of an operation may be said together. -/
theorem Yields.and {outcome : EStateM.Result Error Context α}
    {first second : α → Context → Prop} (hFirst : Yields outcome first)
    (hSecond : Yields outcome second) :
    Yields outcome fun answer after => first answer after ∧ second answer after := by
  cases outcome with
  | ok answer after => exact ⟨hFirst, hSecond⟩
  | error error after => exact trivial

/-- An operation that tells nothing of regions. -/
def Discreet (step : Step α) : Prop :=
  ∀ context, Yields (step context) fun _ after => after.told = context.told

private theorem Discreet.bind {first : Step β} {rest : β → Step α}
    (hFirst : Discreet first) (hRest : ∀ answer, Discreet (rest answer)) :
    Discreet (first >>= rest) :=
  fun context => ends_bind ((hFirst context).imp fun answer after hAfter =>
    (hRest answer after).imp fun _ _ hLast => hLast.trans hAfter)

private theorem discreet_pure (answer : α) :
    Discreet (pure answer : Step α) := fun _ => rfl

private theorem discreet_get : Discreet (get : Step Context) := fun _ => rfl

private theorem discreet_throw (error : Error) :
    Discreet (throw error : Step α) := fun _ => trivial

private theorem discreet_fail (cause : Corruption) :
    Discreet (fail cause : Step α) := discreet_throw _

private theorem discreet_modify {f : Context → Context}
    (h : ∀ context, (f context).journal = context.journal) :
    Discreet (modify f : Step Unit) :=
  fun context => congrArg (List.filterMap Notice.moved?) (h context)

private theorem discreet_note {notice : Notice} (h : notice.moved? = none) :
    Discreet (note notice) :=
  fun _ => List.filterMap_cons_none h

private theorem discreet_ofExcept (outcome : Except Error α) :
    Discreet (Context.ofExcept outcome) :=
  fun _ => ends_ofExcept (fun _ _ => rfl) fun _ _ => trivial

private theorem discreet_freshId : Discreet freshId := fun _ => rfl

private theorem discreet_onRegions (f : Stack Region → Except Error (Stack Region)) :
    Discreet (onRegions f) :=
  discreet_get.bind fun _ => (discreet_ofExcept _).bind fun _ => discreet_modify
    fun _ => rfl

private theorem discreet_onDispatch
    (f : Stack Dispatch → Except Error (Stack Dispatch)) : Discreet (onDispatch f) :=
  discreet_get.bind fun _ => (discreet_ofExcept _).bind fun _ => discreet_modify
    fun _ => rfl

private theorem discreet_onGuards
    (f : Stack ScopeMark → Except Error (Stack ScopeMark)) : Discreet (onGuards f) :=
  discreet_get.bind fun _ => (discreet_ofExcept _).bind fun _ => discreet_modify
    fun _ => rfl

private theorem discreet_onFrames (f : Frames → Except Error Frames) :
    Discreet (onFrames f) :=
  discreet_get.bind fun _ => (discreet_ofExcept _).bind fun _ => discreet_modify
    fun _ => rfl

private theorem discreet_onRecords (f : Records → Except Error Records) :
    Discreet (onRecords f) :=
  discreet_get.bind fun _ => (discreet_ofExcept _).bind fun _ => discreet_modify
    fun _ => rfl

private theorem discreet_detachAbove (depth : Nat) : Discreet (detachAbove depth) :=
  discreet_modify fun _ => rfl

private theorem discreet_reconcileFrames (depth : Nat) :
    Discreet (reconcileFrames depth) := by
  refine discreet_get.bind fun _ => discreet_get.bind
    fun _ => (discreet_ofExcept _).bind fun cut => ?_
  obtain ⟨outcome, frames⟩ := cut
  cases outcome with
  | balanced => exact discreet_modify fun _ => rfl
  | repaired count innermost =>
      exact (discreet_note rfl).bind fun _ => discreet_modify fun _ => rfl

private theorem discreet_releaseRecords (depth : Nat) (keep : Bool) :
    Discreet (releaseRecords depth keep) := by
  refine discreet_get.bind fun found => ?_
  cases found.inFlight with
  | none => exact discreet_onRecords _
  | some index =>
      dsimp only
      split
      · exact discreet_onRecords _
      · cases keep with
        | true =>
            exact Discreet.bind (discreet_onRecords _) fun _ => discreet_modify
              fun _ => rfl
        | false =>
            exact Discreet.bind (discreet_modify fun _ => rfl)
              fun _ => discreet_onRecords _

private theorem discreet_takeEscape (owner : Nat) : Discreet (takeEscape owner) := by
  refine discreet_get.bind fun found => ?_
  cases found.escapes with
  | nil => exact discreet_pure _
  | cons escape older =>
      dsimp only
      split
      · exact Discreet.bind (discreet_modify fun _ => rfl) fun _ => discreet_pure _
      · exact discreet_pure _

private theorem discreet_popDispatch (owner : Nat) (purpose : Purpose) :
    Discreet (popDispatch owner purpose) := by
  refine discreet_get.bind fun found => ?_
  cases found.dispatch.top? with
  | none => exact discreet_throw _
  | some mark =>
      dsimp only
      generalize (if mark.isGuard = true then Purpose.guard else .region) = sort
      split
      · refine (discreet_onDispatch _).bind fun _ => ?_
        cases mark with
        | region owner => exact discreet_pure _
        | guard owner parked => exact discreet_modify fun _ => rfl
      · exact discreet_fail _

private theorem discreet_dropDispatch (visit : Visit) :
    Discreet (dropDispatch visit) := by
  refine discreet_get.bind fun found => ?_
  cases found.dispatch.top? with
  | none => exact discreet_pure _
  | some mark =>
      dsimp only
      split
      · exact discreet_onDispatch _
      · exact discreet_pure _

/-- An abandoned region goes without a word about its state. -/
theorem discreet_abandon (visit : Visit) : Discreet (abandon visit) := by
  refine discreet_get.bind fun _ => (discreet_note rfl).bind
    fun _ => (discreet_releaseRecords _ _).bind fun _ =>
    (discreet_detachAbove _).bind fun _ => (discreet_onRegions _).bind
      fun _ => (discreet_onDispatch _).bind fun _ =>
    (discreet_onGuards _).bind fun _ => (discreet_reconcileFrames _).bind
      fun _ => discreet_get.bind fun found => ?_
  cases reporter? found with
  | none => exact discreet_fail _
  | some owner =>
      refine discreet_get.bind fun _ => ?_
      split
      · exact discreet_note rfl
      · exact discreet_modify fun _ => rfl

private theorem discreet_measure (table : KindTable) (kind : Kind) : Discreet (do
    let _ ← Context.ofExcept (table.entry kind)
    return (← get).messageLimit) :=
  (discreet_ofExcept _).bind fun _ => discreet_get.bind fun _ => discreet_pure _

private theorem discreet_raise (table : KindTable) (kind : Kind) (site : Site)
    (written : String) :
    Discreet (Context.raise table kind site written) := by
  refine discreet_get.bind fun _ => (discreet_onRecords _).bind
    fun _ => discreet_get.bind fun found => ?_
  split
  · exact Discreet.bind (discreet_modify fun _ => rfl) fun _ => discreet_pure _
  · cases found.current? with
    | none => exact discreet_throw _
    | some exception => exact discreet_pure _

private theorem discreet_forward (exception : Exception) :
    Discreet (Context.forward exception) := by
  refine discreet_get.bind fun _ => ?_
  split
  · exact (discreet_onRecords _).bind
      fun _ => Discreet.bind (discreet_modify fun _ => rfl) fun _ => discreet_pure _
  · exact discreet_pure _

private theorem discreet_openScope (site : Site) : Discreet (openScope site) :=
  discreet_freshId.bind fun _ => (discreet_onGuards _).bind fun _ => discreet_pure _

private theorem discreet_closeScope (mark : Nat) : Discreet (closeScope mark) := by
  refine discreet_get.bind fun found => ?_
  cases found.guards.top? with
  | none => exact discreet_throw _
  | some innermost =>
      dsimp only
      split
      · exact discreet_onGuards _
      · exact discreet_fail _

private theorem discreet_shield (owner : Nat) : Discreet (shield owner) :=
  discreet_get.bind fun _ => (discreet_onDispatch _).bind fun _ => discreet_modify
    fun _ => rfl

private theorem discreet_enterCall (site : Site) : Discreet (enterCall site) :=
  discreet_get.bind fun _ => (discreet_onFrames _).bind fun _ => discreet_pure _

private theorem discreet_leaveCall (entry : Depths) (unwinding : Bool) :
    Discreet (leaveCall entry unwinding) := by
  refine (discreet_detachAbove _).bind fun _ => (discreet_reconcileFrames _).bind
    fun _ =>
    (discreet_onFrames _).bind fun _ => ?_
  cases unwinding with
  | true => exact discreet_pure _
  | false =>
      refine discreet_get.bind fun found => ?_
      dsimp only
      split
      · exact discreet_pure _
      · exact discreet_fail _

/-! The others tell of one region. -/

private theorem tells_setState {visit : Visit} {state : RegionState} :
    Yields (setState visit state context) fun _ after => after.told =
      (visit.id, state) :: context.told := by
  refine ends_bind (ends_get ?_)
  cases context.regions.top? with
  | none => exact ends_fail trivial
  | some region =>
      dsimp only
      split
      · next hId =>
          exact ends_bind
            (ends_note (ends_modify (List.filterMap_cons_some (by rw [← hId]; rfl))))
      · exact ends_fail trivial

/-- A region that is entered tells so, and a protected one that its body begins; that is
the state of its mark then. -/
theorem tells_enter {site : Site} {explicit : Bool} :
    Yields (enter site explicit context) fun visit after =>
      after.told = (Deed.enters visit).moved ++ context.told ∧ after.regions.top? =
        some ⟨visit, visit.opening⟩ := by
  refine ends_bind (ends_get (ends_bind (ends_freshId ?_)))
  refine ends_bind (ends_onRegions (fun regions hRegions => ?_) fun _ _ => trivial)
  have hLive := (Stack.live_place hRegions).1
  cases explicit with
  | true =>
      refine ends_bind (ends_onFrames (fun frames _ => ?_) fun _ _ => trivial)
      exact ends_bind (ends_note (ends_pure ⟨rfl, Stack.top?_of_live hLive⟩))
  | false =>
      refine ends_bind (ends_onDispatch (fun dispatch _ => ?_) fun _ _ => trivial)
      refine ends_bind (ends_onFrames (fun frames _ => ?_) fun _ _ => trivial)
      refine ends_bind
        (ends_note
        (ends_bind ((tells_setState.and effect_setState).imp fun _ after hAfter =>
        ends_pure ?_)))
      obtain ⟨hTold, region, rest, hFound, -, hAfter⟩ := hAfter
      obtain ⟨rfl, rfl⟩ := List.cons.inj (hLive.symm.trans hFound)
      exact ⟨hTold, Stack.top?_of_live (congrArg Entries.regions hAfter)⟩

/-- A region that catches an exception tells that it looks for a clause. -/
theorem tells_catchInFlight {visit : Visit} :
    Yields (catchInFlight visit context) fun _ after => after.told =
      (visit.id, .matching) :: context.told := by
  refine ends_bind (tells_setState.imp fun _ moved hMoved => ends_bind (ends_get ?_))
  cases moved.inFlight with
  | none => exact ends_fail trivial
  | some index =>
      refine ends_bind (ends_modify (ends_bind (ends_get ?_)))
      cases moved.records.get? index with
      | none => exact ends_fail trivial
      | some record => exact ends_bind (ends_get (ends_pure hMoved))

/-- A region that has an escape to report tells that it has caught it. -/
theorem tells_claimEscape {slots : Slots} {visit : Visit} :
    Yields (claimEscape slots visit context) fun answer after =>
      after.told = (answer.toList.map fun _ => (visit.id, .matching)) ++
        context.told := by
  refine ends_bind
    ((discreet_takeEscape visit.id context).imp fun escape taken hTaken => ?_)
  cases escape with
  | none => exact ends_pure hTaken
  | some escape =>
      refine ends_bind
        (ends_get (ends_bind (ends_onRecords (fun records _ => ?_) fun _ _ => trivial)))
      refine ends_bind
        (ends_modify (ends_bind
        (ends_note (ends_bind (tells_catchInFlight.imp fun _ _ hCaught => ?_)))))
      exact ends_pure
        (hCaught.trans (congrArg (List.cons (visit.id, RegionState.matching)) hTaken))

/-- One that has found its clause tells that it handles. -/
theorem tells_beginHandling {visit : Visit} :
    Yields (beginHandling visit context) fun _ after => after.told =
      (visit.id, .handling) :: context.told :=
  ends_bind ((discreet_popDispatch visit.id .region context).imp fun _ _ hPopped =>
    tells_setState.imp fun _ _ hMoved => hMoved.trans (congrArg (List.cons _) hPopped))

/-- What leaving a region tells once its escape is out of the way: the innermost region
is outside. -/
theorem tells_leaveEmptied {visit : Visit} {unwinding : Bool} {region : Region}
    {outer : List Region} (hRegions : context.regions.live = region :: outer) :
    Yields ((do
      dropDispatch visit
      let entry := visit.entry
      releaseRecords entry.exceptions unwinding
      detachAbove entry.frames
      let top := (← get).regions.top?
      onRegions fun regions => regions.pop.map Prod.snd
      onFrames Frames.leave
      if let some region := top then
        note (.regionMoved region.visit.id region.visit.site region.state .outside)
      let context ← get
      let carried := unwinding && context.inFlight == some entry.exceptions
      let now := context.depths
      let exit := if carried then { now with exceptions := now.exceptions - 1 } else now
      unless (exit.mismatches entry).isEmpty do
        fail (.regionUnbalanced visit.site entry exit) : Step Unit) context)
          fun _ after =>
      after.told = (region.visit.id, .outside) :: context.told := by
  refine ends_bind (((discreet_dropDispatch visit context).and effect_dropDispatch).imp
    fun _ dropped hDropped => ?_)
  refine ends_bind
    (((discreet_releaseRecords _ _ dropped).and effect_releaseRecords).imp
    fun _ freed hFreed => ?_)
  refine ends_bind (((discreet_detachAbove _ freed).and effect_detachAbove).imp
    fun _ settled hSettled => ?_)
  have hTold : settled.told = context.told :=
    hSettled.1.trans (hFreed.1.trans hDropped.1)
  have hLive : settled.regions.live = region :: outer := by
    have hSame : settled.entries.regions = context.entries.regions := by
      rw [hSettled.2, hFreed.2, hDropped.2]
    exact hSame.trans hRegions
  rw [← hTold]
  refine ends_bind
    (ends_get (ends_bind (ends_onRegions (fun regions _ => ?_) fun _ _ => trivial)))
  rw [Stack.top?_of_live hLive]
  refine ends_bind ((discreet_onFrames _ _).imp fun _ popped hPopped => ?_)
  refine ends_bind (ends_note (effect_balance.imp fun _ after hAfter => ?_))
  rw [hAfter.1]
  exact congrArg (List.cons _) hPopped

/-- A region that is left tells so twice. An escape that is dropped on the way is told
too, but it is no news of a region. -/
theorem tells_leave {visit : Visit} {unwinding : Bool} :
    Yields (leave visit unwinding context) fun _ after =>
      after.told = (visit.id, .outside) :: (visit.id, .cleanup) :: context.told := by
  unfold leave
  refine ends_bind ((tells_setState.and effect_setState).imp fun _ moved hMoved => ?_)
  obtain ⟨hMoved, region, outer, -, hId, hEntries⟩ := hMoved
  refine ends_bind (((discreet_takeEscape visit.id moved).and effect_takeEscape).imp
    fun escape taken hTaken => ?_)
  have hLive : taken.regions.live = ⟨region.visit, .cleanup⟩ :: outer :=
    congrArg Entries.regions (hTaken.2.trans hEntries)
  have hDone (after : Context)
    (hAfter : after.told = (region.visit.id, .outside) :: taken.told) :
      after.told = (visit.id, .outside) :: (visit.id, .cleanup) :: context.told := by
    rw [hAfter, hTaken.1, hMoved, hId]
  cases escape with
  | none => exact (tells_leaveEmptied hLive).imp fun _ after => hDone after
  | some escape =>
      refine ends_bind (ends_note ?_)
      exact Ends.imp (tells_leaveEmptied hLive) fun _ after => hDone after

end

/-! ## Notices of declarations -/

/-- What a declaration tells is about kinds. -/
theorem Registry.moved_declare {registry next : Registry} {entry : Entry} {kind : Kind}
    {notices : List Notice} (h : registry.declare entry = .ok (kind, next, notices)) :
    ∀ notice ∈ notices, notice.moved? = none := by
  have hResolve {resolved : KindTable.Registered (Option Kind)}
      (hResolved : registry.table.resolveParent registry.slots entry.slot entry.parent =
        .ok resolved) :
      ∀ notice ∈ resolved.notices, notice.moved? = none := by
    unfold KindTable.resolveParent at hResolved
    repeat' split at hResolved
    · cases hResolved
      exact fun _ hMem => nomatch hMem
    · cases hResolved
    · cases hResolved
      exact fun _ hMem => nomatch hMem
    · cases hResolved
      exact fun _ hMem => List.mem_singleton.1 hMem ▸ rfl
  have hAppend {told : List Notice} {last : Notice}
    (hTold : ∀ notice ∈ told, notice.moved? = none)
    (hLast : last.moved? = none) : ∀ notice ∈ told ++ [last],
        notice.moved? = none := by
    intro notice hMem
    rcases List.mem_append.1 hMem with hOld | hNew
    · exact hTold notice hOld
    · exact List.mem_singleton.1 hNew ▸ hLast
  unfold declare at h
  split at h
  · next done hDone =>
      cases h
      unfold KindTable.register at hDone
      repeat' split at hDone
      all_goals cases hDone
      · exact hAppend (hResolve ‹_›) rfl
      · exact fun _ hMem => nomatch hMem
      · exact hAppend (hResolve ‹_›) rfl
  · cases h

/-! ## Stages -/

/-- What the code of a protected region is at. -/
inductive Position where
  /-- The body of the region waits for the code that runs. -/
  | body
  /-- The clauses of the region are tried. -/
  | clauses
  /-- No clause of the region fits, and it is about to be left. -/
  | declined
  /-- The body or a handler of the region has returned, and it is about to be left. -/
  | returned
  /-- A handler of the region waits for the code that runs. -/
  | handler

/-- How far the code of a protected region is.

It is read off the code, and not off the marks of the runtime. That the two fit is a
law. -/
structure Stage where
  visit : Visit
  position : Position

/-- The region whose body or handler waits here, and how far its code is. -/
def Resumption.stage? : Resumption ν → Option Stage
  | .body region => some ⟨region.visit, .body⟩
  | .handler region => some ⟨region.visit, .handler⟩
  | _ => none

/-- The region whose clauses are looked through next, or that is left next, and how far
its code is. -/
def Focus.stage? : Focus ν → Option Stage
  | .offer region _ => some ⟨region.visit, .clauses⟩
  | .leave region (.error _) => some ⟨region.visit, .declined⟩
  | .leave region (.ok _) => some ⟨region.visit, .returned⟩
  | _ => none

/-- The protected regions that waiting code is in, innermost first. -/
def stagesOf (control : List (Resumption ν)) : List Stage :=
  control.filterMap Resumption.stage?

/-- The protected regions that code is in, innermost first. -/
def Machine.stages (m : Machine ν) : List Stage :=
  m.focus.stage?.toList ++ stagesOf m.control

/-- Handles are in no region's code. -/
theorem stagesOf_congr {control other : List (Resumption ν)}
    (h : other.map Resumption.stage? = control.map Resumption.stage?) :
    stagesOf other = stagesOf control := by
  have hMap (control : List (Resumption ν)) :
      stagesOf control = (control.map Resumption.stage?).filterMap id := by
    rw [List.filterMap_map]
    rfl
  rw [hMap, hMap, h]

private theorem stagesOf_own (m : Machine ν) (name : String) (handle : Handle ν) :
    stagesOf (m.own name handle).control = stagesOf m.control :=
  stagesOf_congr (map_own (fun _ _ _ _ _ => rfl) m name handle)

namespace Deed

/-- A deed that tells nothing of regions, and is nothing that a protected region
does. -/
def IsSilent : Deed → Prop
  | .declines _ => False
  | .enters _ => False
  | .leaves _ _ _ => False
  | .catches _ _ => False
  | .reports _ _ => False
  | .handles _ _ _ => False
  | _ => True

/-- A region that is entered lies on top of the region stack, in its first state. -/
def Places : Deed → Option Context → Prop
  | .enters visit, some context => context.regions.top? = some ⟨visit, visit.opening⟩
  | _, _ => True

end Deed

/-- What a deed does to the stages of the regions that code is in, with the extent that
the step gives up.

The stages are read off the code that waits, so this says where in the code each deed of
a region is done. -/
inductive Restages (closing : Option Extent) : Deed → List Stage → List Stage → Prop
  | silent {deed : Deed} {stages : List Stage} (isSilent : deed.IsSilent) :
      Restages closing deed stages stages
  | enters {visit : Visit} {stages : List Stage}
      (isProtected : visit.explicit = false) :
      Restages closing (.enters visit) stages (⟨visit, .body⟩ :: stages)
  | opens {visit : Visit} {stages : List Stage} (isExplicit : visit.explicit = true) :
      Restages closing (.enters visit) stages stages
  | leaves {visit : Visit} {unwinding : Bool} {fate : Fate} {position : Position}
      {stages : List Stage} :
      Restages closing (.leaves visit unwinding fate) (⟨visit, position⟩ :: stages)
        stages
  /-- An explicit region is left by giving up its handle. -/
  | gives {visit : Visit} {unwinding : Bool} {fate : Fate} {stages : List Stage}
      (isGiven : closing = some (.region visit)) :
      Restages closing (.leaves visit unwinding fate) stages stages
  | catches {visit : Visit} {exception : Exception} {stages : List Stage} :
      Restages closing (.catches visit exception) (⟨visit, .body⟩ :: stages)
        (⟨visit, .clauses⟩ :: stages)
  | reports {visit : Visit} {exception : Exception} {stages : List Stage} :
      Restages closing (.reports visit exception) (⟨visit, .body⟩ :: stages)
        (⟨visit, .clauses⟩ :: stages)
  | handles {visit : Visit} {exception : Exception} {name : String}
      {stages : List Stage} :
      Restages closing (.handles visit exception name) (⟨visit, .clauses⟩ :: stages)
        (⟨visit, .handler⟩ :: stages)
  | declines {visit : Visit} {exception : Exception} {stages : List Stage} :
      Restages closing (.declines exception) (⟨visit, .clauses⟩ :: stages)
        (⟨visit, .declined⟩ :: stages)
  | returns {visit : Visit} {position : Position} {stages : List Stage}
      (isRun : position = .body ∨ position = .handler) :
      Restages closing .rests (⟨visit, position⟩ :: stages)
        (⟨visit, .returned⟩ :: stages)

namespace Machine

/-- Everything that was told has been handed on. -/
def HasToldAll (m : Machine ν) : Prop :=
  ∀ context, m.context = some context → context.journal = []

/-- What a step with a deed has told, and what it did to the stages. -/
structure Shows (m : Machine ν) (closing : Option Extent) (deed : Deed)
    (before : List Stage) (after : Machine ν) : Prop where
  told : after.told = deed.moved ++ m.told
  restages : Restages closing deed before after.stages
  places : deed.Places after.context

section

variable {m after popped : Machine ν} {closing : Option Extent} {deed : Deed}
    {before : List Stage}

private theorem shows_silent (isSilent : deed.IsSilent) (hTold : after.told = m.told)
    (hStages : after.stages = before) :
    m.Shows closing deed before after := by
  have hMoved : deed.moved = [] := by cases deed <;> first | rfl | exact isSilent.elim
  refine ⟨by rw [hMoved]; exact hTold, hStages ▸ .silent isSilent, ?_⟩
  cases deed <;> trivial

/-- A step on the context that answers is followed through what comes next. -/
theorem shows_perform {α : Type} {step : Step α} {next : Machine ν → α → Machine ν}
    (hGoesOn : (popped.perform step next).poisoned = false)
    (hNext : ∀ context answer after, popped.context = some context →
      step context = .ok answer after →
      (next (popped.store after) answer).poisoned = false →
        m.Shows closing deed before (next (popped.store after) answer)) :
    m.Shows closing deed before (popped.perform step next) := by
  obtain ⟨context, answer, after, hContext, hOk, hStep⟩ := perform_goesOn hGoesOn
  rw [hStep] at hGoesOn ⊢
  exact hNext context answer after hContext hOk hGoesOn

/-- What an operation tells is handed on in front of what was told before. -/
theorem told_stored {context left : Context} {news : List (Nat × RegionState)}
    (hAll : popped.HasToldAll) (hContext : popped.context = some context)
    (hTold : left.told = news ++ context.told) :
    (popped.store left).told = news ++ popped.told := by
  have hNone : context.told = [] := by rw [Context.told, hAll context hContext]; rfl
  rw [told_store, hTold, hNone, List.append_nil]

/-- An operation that tells nothing of regions, with a deed that is about none. -/
theorem shows_discreet {α : Type} {step : Step α} {next : Machine ν → α → Machine ν}
    (hDiscreet : Discreet step) (isSilent : deed.IsSilent) (hAll : popped.HasToldAll)
    (hTold : popped.told = m.told)
    (hGoesOn : (popped.perform step next).poisoned = false)
    (hNext : ∀ left answer, (next (popped.store left) answer).poisoned = false →
      (next (popped.store left) answer).told = (popped.store left).told ∧
        (next (popped.store left) answer).stages = before) :
    m.Shows closing deed before (popped.perform step next) := by
  refine shows_perform hGoesOn fun context answer left hContext hOk hOn => ?_
  obtain ⟨hSame, hStages⟩ := hNext left answer hOn
  have hLeft : left.told = [] ++ context.told := (hDiscreet context).of_ok hOk
  exact shows_silent isSilent
    ((hSame.trans (told_stored hAll hContext hLeft)).trans hTold) hStages

private theorem silent_answering {α : Type} {step : Step α} {deed : α → Deed}
    (hDeed : ∀ answer, (deed answer).IsSilent) :
    (m.answering step deed).IsSilent := by
  unfold answering
  split
  · trivial
  · split
    · exact hDeed _
    · trivial

private theorem silent_closing (m : Machine ν) : m.closing.IsSilent := by
  unfold closing
  split <;> trivial

/-! ## Statements and handles -/

private theorem told_own (m : Machine ν) (name : String) (handle : Handle ν) :
    (m.own name handle).told = m.told := by
  unfold own
  split <;> rfl

private theorem told_openThread (m : Machine ν) (limits : Option Limits) :
    (m.openThread limits).2.told = m.told := by
  unfold openThread installed
  cases m.config <;> dsimp only <;> split <;> first | rfl | (split <;> rfl)

private theorem told_closeThread (m : Machine ν) : m.closeThread.2.told = m.told := by
  unfold closeThread
  repeat' split
  all_goals rfl

private theorem told_dropThread (m : Machine ν) : m.dropThread.told = m.told := by
  have hClosed := told_closeThread m
  unfold dropThread
  split
  · split <;> rfl
  · cases hClose : m.closeThread with
    | mk outcome closed =>
        rw [hClose] at hClosed
        cases outcome <;> exact hClosed

/-- A region that is entered is told, and the code that runs then owns its handle or is
its body. -/
theorem shows_enter {site : Site} {explicit : Bool}
    {next : Machine ν → Visit → Machine ν} (hAll : m.HasToldAll)
    (hDeed : deed = m.answering (Context.enter site explicit) .enters)
    (hGoesOn : (m.perform (Context.enter site explicit) next).poisoned = false)
    (hNext : ∀ left visit, visit.explicit = explicit →
      (next (m.store left) visit).told = (m.store left).told ∧
      (next (m.store left) visit).context = (m.store left).context ∧
      Restages closing (.enters visit) before (next (m.store left) visit).stages) :
    m.Shows closing deed before (m.perform (Context.enter site explicit) next) := by
  refine shows_perform hGoesOn fun context visit left hContext hOk _ => ?_
  obtain ⟨hTold, hTop⟩ := tells_enter.of_ok hOk
  obtain ⟨hSame, hStored, hRestages⟩ :=
    hNext left visit (by rw [(effect_enter.of_ok hOk).1])
  rw [hDeed, answering_ok hContext hOk]
  refine ⟨hSame.trans (told_stored hAll hContext hTold), hRestages, ?_⟩
  rw [hStored]
  exact hTop

private theorem shows_acquire {name : String} {opening : Opening} {times : Nat}
    (hAll : m.HasToldAll) (hFocus : m.focus = .exec (.acquire name opening (times + 1)))
    (hGoesOn :
      (m.acquire name opening fun m =>
      m.goto (.exec (.acquire name opening times))).poisoned = false) :
    m.Shows closing m.deed (stagesOf m.control)
      (m.acquire name opening fun m => m.goto (.exec (.acquire name opening times))) :=
      by
  unfold acquire at hGoesOn ⊢
  cases opening with
  | thread limits =>
      have isSilent : m.deed.IsSilent := by
        simp only [Machine.deed, hFocus, deedOf]
        split <;> trivial
      have hTold := told_openThread m limits
      have hControl := control_openThread m limits
      cases hOpen : m.openThread limits with
      | mk outcome opened =>
          rw [hOpen] at hTold hControl
          simp only [hOpen]
          cases outcome with
          | opened =>
              refine shows_silent isSilent ((told_own opened name .thread).trans hTold)
                ?_
              exact (stagesOf_own opened name .thread).trans
                (congrArg stagesOf hControl)
          | refused error =>
              exact shows_silent isSilent hTold (congrArg stagesOf hControl)
          | overflowed => exact shows_silent isSilent hTold (congrArg stagesOf hControl)
  | region site =>
      refine shows_enter hAll (by simp only [Machine.deed, hFocus, deedOf]) hGoesOn
        fun left visit isExplicit => ?_
      refine ⟨told_own _ _ _, context_own _ _ _, ?_⟩
      have hStages :
          stagesOf
          ((m.store left).own name (.region visit (m.store left).isPanicking)).control =
          stagesOf m.control :=
        stagesOf_own _ _ _
      change Restages _ _ _
        (stagesOf
        ((m.store left).own name (.region visit (m.store left).isPanicking)).control)
      rw [hStages]
      exact .opens isExplicit
  | call site =>
      have isSilent : m.deed.IsSilent := by
        simp only [Machine.deed, hFocus, deedOf]
        exact silent_answering fun _ => trivial
      exact shows_discreet (discreet_enterCall site) isSilent hAll rfl hGoesOn
        fun _ _ _ => ⟨told_own _ _ _, stagesOf_own _ _ _⟩
  | guards site =>
      exact shows_silent (by simp only [Machine.deed, hFocus, deedOf]; trivial)
        (told_own _ _ _) (stagesOf_own _ _ _)

private theorem shows_registerGuard {name : String} {flavor : Flavor}
    {body : List (Stmt ν)} (hAll : m.HasToldAll) (isSilent : deed.IsSilent)
    (hGoesOn : (m.registerGuard name flavor body).poisoned = false) :
    m.Shows closing deed (stagesOf m.control) (m.registerGuard name flavor body) := by
  have hPut (handle : Handle ν) :
      stagesOf (Handle.put name handle m.control) = stagesOf m.control :=
    stagesOf_congr (map_put (fun _ _ _ _ _ => rfl) name handle m.control)
  unfold registerGuard at hGoesOn ⊢
  split
  · next scope hFind =>
      rw [hFind] at hGoesOn
      dsimp only at hGoesOn ⊢
      split
      · exact shows_silent isSilent rfl (hPut _)
      · next hMark =>
          rw [hMark] at hGoesOn
          exact shows_discreet (discreet_openScope _) isSilent hAll rfl hGoesOn
            fun _ _ _ => ⟨rfl, hPut _⟩
  · exact shows_silent isSilent rfl rfl

/-- A region that is left is told, and the code that runs then is around it. -/
theorem shows_left {visit : Visit} {unwinding : Bool} {fate : Fate}
    {next : Machine ν → Unit → Machine ν} (hAll : popped.HasToldAll)
    (hTold : popped.told = m.told)
    (hGoesOn : (popped.perform (Context.leave visit unwinding) next).poisoned = false)
    (hNext : ∀ left, (next (popped.store left) ()).told = (popped.store left).told ∧
      Restages closing (.leaves visit unwinding fate)
        before (next (popped.store left) ()).stages) :
    m.Shows closing (.leaves visit unwinding fate)
      before (popped.perform (Context.leave visit unwinding) next) := by
  refine shows_perform hGoesOn fun context _ left hContext hOk _ => ?_
  obtain ⟨hSame, hRestages⟩ := hNext left
  have hLeft : left.told = (Deed.leaves visit unwinding fate).moved ++ context.told :=
    tells_leave.of_ok hOk
  exact ⟨(hSame.trans (told_stored hAll hContext hLeft)).trans (by rw [hTold]),
    hRestages, trivial⟩

private theorem shows_release {name : String} {how : Closing}
    (hClear : m.poisoned = false) (hAll : m.HasToldAll)
    (hFocus : m.focus = .exec (.release name how))
    (hGoesOn : (m.release name how).poisoned = false) :
    m.Shows m.closing? m.deed (stagesOf m.control) (m.release name how) := by
  unfold release at hGoesOn ⊢
  cases hTake : Handle.take? name m.control with
  | none =>
      rw [show m.deed = .rests by simp only [Machine.deed, hFocus, deedOf, hTake]]
      exact shows_silent trivial rfl rfl
  | some taken =>
      obtain ⟨handle, control⟩ := taken
      have hKept : stagesOf control = stagesOf m.control :=
        stagesOf_congr (map_take? (fun _ _ _ _ _ => rfl) hTake)
      rw [hTake] at hGoesOn
      have hDeed : m.deed = m.deedOf (.release name how) := by
        simp only [Machine.deed, hFocus]
      simp only [deedOf, hTake] at hDeed
      rw [hDeed]
      cases how with
      | drop => cases handle <;> exact shows_silent trivial rfl hKept
      | forget => cases handle <;> exact shows_silent trivial rfl hKept
      | leave =>
          cases handle with
          | region visit inUnwinding =>
              have isGiven : m.closing? = some (.region visit) := by
                simp only [closing?, hFocus, hTake]
              dsimp only at hGoesOn
              exact shows_left hAll rfl hGoesOn fun _ => ⟨rfl, hKept ▸ .gives isGiven⟩
          | _ => exact shows_silent trivial rfl hKept
      | shutdown =>
          cases handle with
          | thread =>
              obtain ⟨-, hControl, -⟩ :=
                closeThread_clear (m := { m with control }) hClear
              exact shows_silent (silent_closing m) (told_closeThread _)
                ((congrArg stagesOf hControl).trans hKept)
          | _ => exact shows_silent trivial rfl hKept

private theorem shows_drop {handle : Handle ν} (hClear : m.poisoned = false)
    (hAll : m.HasToldAll) (hFocus : m.focus = .drop handle)
    (hGoesOn : (m.drop handle).poisoned = false) :
    m.Shows m.closing? m.deed (stagesOf m.control) (m.drop handle) := by
  unfold drop at hGoesOn ⊢
  simp only [Machine.deed, closing?, hFocus]
  cases handle with
  | thread =>
      obtain ⟨-, hControl, -⟩ := dropThread_clear hClear
      exact shows_silent (silent_closing m) (told_dropThread m)
        (congrArg stagesOf hControl)
  | region visit inUnwinding =>
      simp only [hClear, Bool.false_eq_true, if_false] at hGoesOn ⊢
      split
      · next hLeaves =>
          rw [if_pos hLeaves] at hGoesOn
          exact shows_left hAll rfl hGoesOn fun _ => ⟨rfl, .gives rfl⟩
      · next hNot =>
          rw [if_neg hNot] at hGoesOn
          exact shows_discreet (discreet_abandon visit) trivial hAll rfl hGoesOn
            fun _ _ _ => ⟨rfl, rfl⟩
  | call entry inUnwinding =>
      simp only [hClear, Bool.false_eq_true, if_false] at hGoesOn ⊢
      exact shows_discreet (discreet_leaveCall _ _) trivial hAll rfl hGoesOn
        fun _ _ _ => ⟨rfl, rfl⟩
  | guards scope =>
      dsimp only
      cases scope.mark with
      | none => exact shows_silent trivial rfl rfl
      | some mark =>
          simp only [hClear, Bool.false_eq_true, if_false]
          exact shows_silent trivial rfl rfl

private theorem shows_leaveScope {scope : Leaving ν} (hAll : m.HasToldAll)
    (hFocus : m.focus = .leaveScope scope)
    (hGoesOn : (m.leaveScope scope).poisoned = false) :
    m.Shows closing m.deed (stagesOf m.control) (m.leaveScope scope) := by
  unfold leaveScope at hGoesOn ⊢
  simp only [Machine.deed, hFocus]
  cases hBodies : scope.bodies with
  | nil =>
      rw [hBodies] at hGoesOn
      exact shows_discreet (discreet_closeScope _) trivial hAll rfl hGoesOn
        fun _ _ _ => ⟨rfl, rfl⟩
  | cons registered bodies =>
      obtain ⟨flavor, body⟩ := registered
      rw [hBodies] at hGoesOn
      dsimp only at hGoesOn ⊢
      split
      · next hApplies =>
          rw [if_pos hApplies] at hGoesOn
          exact shows_discreet (discreet_shield _) trivial hAll rfl hGoesOn
            fun _ _ _ => ⟨rfl, rfl⟩
      · exact shows_silent trivial rfl rfl

/-! ## Raises and regions -/

private theorem shows_raise {ref : KindRef} {site : Site} {message : List (Piece ν)}
    (hAll : m.HasToldAll) (isSilent : deed.IsSilent)
    (hGoesOn : (m.raise ref site message).poisoned = false) :
    m.Shows closing deed (stagesOf m.control) (m.raise ref site message) := by
  unfold raise at hGoesOn ⊢
  cases hKind : ref.resolve? m.registry.slots with
  | none =>
      rw [hKind] at hGoesOn
      cases hGoesOn.symm.trans (poisoned_terminate _ _)
  | some kind =>
      rw [hKind] at hGoesOn
      exact shows_discreet (discreet_measure _ _) isSilent hAll rfl hGoesOn
        fun _ _ _ => ⟨rfl, rfl⟩

/-- A raise or a forward that answers either unwinds, or the thread is terminated. -/
theorem shows_sent {step : Step (Option Exception)} (hDiscreet : Discreet step)
    (isSilent : deed.IsSilent) (hAll : popped.HasToldAll) (hTold : popped.told = m.told)
    (hGoesOn : (popped.perform step fun m uncaught =>
      match uncaught with
      | none => m.unwind .raise
      | some exception => m.uncaught exception).poisoned = false) :
    m.Shows closing deed (stagesOf popped.control)
      (popped.perform step fun m uncaught =>
      match uncaught with
      | none => m.unwind .raise
      | some exception => m.uncaught exception) := by
  refine shows_discreet hDiscreet isSilent hAll hTold hGoesOn fun left uncaught hOn =>
    ?_
  cases uncaught with
  | none => exact ⟨rfl, rfl⟩
  | some exception => cases hOn.symm.trans (poisoned_terminate _ _)

private theorem shows_finishRaise {raising : Raising} (hAll : m.HasToldAll)
    (isSilent : deed.IsSilent) (hGoesOn : (m.finishRaise raising).poisoned = false) :
    m.Shows closing deed (stagesOf m.control) (m.finishRaise raising) := by
  have hFreed : ({ m with inUse := false } : Machine ν).HasToldAll := hAll
  exact shows_sent (discreet_raise _ _ _ _) isSilent hFreed rfl hGoesOn

private theorem shows_write {raising : Raising} {pieces : List (Piece ν)}
    (hAll : m.HasToldAll) (hFocus : m.focus = .write raising pieces)
    (hGoesOn : (m.write raising pieces).poisoned = false) :
    m.Shows closing m.deed (stagesOf m.control) (m.write raising pieces) := by
  have isSilent : m.deed.IsSilent := by
    simp only [Machine.deed, hFocus]
    split <;> trivial
  cases pieces with
  | nil => exact shows_finishRaise hAll isSilent hGoesOn
  | cons piece rest =>
      cases piece with
      | run body => exact shows_silent isSilent rfl rfl
      | text text =>
          cases hWrite : raising.buffer.write text with
          | mk buffer fits =>
              simp only [write, hWrite] at hGoesOn ⊢
              cases fits with
              | true => exact shows_silent isSilent rfl rfl
              | false => exact shows_finishRaise hAll isSilent hGoesOn

private theorem shows_protect {levels : Nat} {site : Site} {mode : Mode}
    {clauses : List (Clause ν)} {body : List (Stmt ν)} (hAll : m.HasToldAll)
    (hFocus : m.focus = .exec (.protect levels site mode clauses body))
    (hGoesOn : (m.protect levels site mode clauses body).poisoned = false) :
    m.Shows closing m.deed (stagesOf m.control)
      (m.protect levels site mode clauses body) := by
  unfold protect at hGoesOn ⊢
  refine shows_enter hAll (by simp only [Machine.deed, hFocus, deedOf]) hGoesOn
    fun left visit isProtected => ?_
  cases levels with
  | zero => exact ⟨rfl, rfl, .enters isProtected⟩
  | succ inner => cases inner <;> exact ⟨rfl, rfl, .enters isProtected⟩

private theorem shows_offer {region : Protected ν} {exception : Exception}
    (hAll : m.HasToldAll) (hFocus : m.focus = .offer region exception)
    (hGoesOn : (m.offer region exception).poisoned = false) :
    m.Shows closing m.deed (⟨region.visit, .clauses⟩ :: stagesOf m.control)
      (m.offer region exception) := by
  unfold offer at hGoesOn ⊢
  dsimp only at hGoesOn
  simp only [Machine.deed, hFocus]
  generalize List.find? _ region.clauses.zipIdx = found at hGoesOn ⊢
  cases found with
  | none => exact ⟨rfl, .declines, trivial⟩
  | some found =>
      refine shows_perform hGoesOn fun context _ left hContext hOk _ => ?_
      have hLeft : left.told = [(region.visit.id, .handling)] ++ context.told :=
        tells_beginHandling.of_ok hOk
      exact ⟨told_stored hAll hContext hLeft, .handles, trivial⟩

private theorem shows_leave {region : Protected ν}
    {outcome : Except Exception (Option ν)} (hAll : m.HasToldAll)
    (hFocus : m.focus = .leave region outcome)
    (hGoesOn : (m.leave region outcome).poisoned = false) :
    m.Shows closing m.deed
      ((Focus.leave region outcome).stage?.toList ++ stagesOf m.control)
      (m.leave region outcome) := by
  unfold leave at hGoesOn ⊢
  simp only [Machine.deed, hFocus]
  refine shows_left hAll rfl hGoesOn fun _ => ?_
  cases outcome <;> cases region.mode <;> exact ⟨rfl, .leaves⟩

private theorem shows_passThrough {region : Protected ν} {payload : Payload}
    {position : Position} (hClear : popped.poisoned = false) (hAll : popped.HasToldAll)
    (hTold : popped.told = m.told)
    (hGoesOn : (popped.passThrough region payload).poisoned = false) :
    m.Shows closing (.leaves region.visit true .nothing)
      (⟨region.visit, position⟩ :: stagesOf popped.control)
      (popped.passThrough region payload) := by
  unfold passThrough at hGoesOn ⊢
  simp only [hClear, Bool.false_eq_true, if_false] at hGoesOn ⊢
  exact shows_left hAll hTold hGoesOn fun _ => ⟨rfl, .leaves⟩

/-! ## Code that runs and code that waits -/

private theorem told_foldl_note (notices : List Notice) (m : Machine ν)
    (h : ∀ notice ∈ notices, notice.moved? = none) :
    (notices.foldl note m).told = m.told := by
  induction notices generalizing m with
  | nil => rfl
  | cons notice rest ih =>
      refine (ih (m.note notice) fun other hMem =>
        h other (List.mem_cons_of_mem _ hMem)).trans ?_
      exact List.filterMap_cons_none (h notice List.mem_cons_self)

private theorem shows_exec {stmt : Stmt ν} (hClear : m.poisoned = false)
    (hAll : m.HasToldAll) (hFocus : m.focus = .exec stmt)
    (hGoesOn : (m.exec stmt).poisoned = false) :
    m.Shows m.closing? m.deed (stagesOf m.control) (m.exec stmt) := by
  have hDeed : m.deed = m.deedOf stmt := by simp only [Machine.deed, hFocus]
  cases stmt with
  | raise kind site message => exact shows_raise hAll (hDeed ▸ trivial) hGoesOn
  | protect levels site mode clauses body => exact shows_protect hAll hFocus hGoesOn
  | guard scope flavor body =>
      have isSilent : m.deed.IsSilent := by
        rw [hDeed, deedOf]
        split
        · split
          · exact silent_answering fun _ => trivial
          · trivial
        · trivial
      exact shows_registerGuard hAll isSilent hGoesOn
  | release name how => exact shows_release hClear hAll hFocus hGoesOn
  | acquire name opening times =>
      cases times with
      | zero => exact shows_silent (hDeed ▸ by cases opening <;> trivial) rfl rfl
      | succ times => exact shows_acquire hAll hFocus hGoesOn
  | loop times body => cases times <;> exact shows_silent (hDeed ▸ trivial) rfl rfl
  | rethrow name =>
      simp only [exec]
      split <;> exact shows_silent (hDeed ▸ trivial) rfl rfl
  | annotate text =>
      have isSilent : m.deed.IsSilent := by
        rw [hDeed, deedOf]
        split <;> trivial
      simp only [exec]
      split <;> exact shows_silent isSilent rfl rfl
  | inspect name =>
      simp only [exec]
      split <;> exact shows_silent (hDeed ▸ trivial) rfl rfl
  | configure config =>
      simp only [exec]
      split <;> exact shows_silent (hDeed ▸ trivial) rfl rfl
  | declare entry =>
      simp only [exec]
      split
      · exact shows_silent (hDeed ▸ trivial) rfl rfl
      · next kind registry notices hDeclare =>
          have hControl := control_foldl_note notices ({ m with registry } : Machine ν)
          exact shows_silent (hDeed ▸ trivial)
            (told_foldl_note notices _ (Registry.moved_declare hDeclare))
            (congrArg stagesOf hControl)
  | _ => exact shows_silent (hDeed ▸ trivial) rfl rfl

private theorem shows_proceed :
    m.Shows closing .rests (stagesOf m.control) m.proceed := by
  unfold proceed
  split
  · next hControl => exact shows_silent trivial rfl (by rw [hControl]; rfl)
  · next hControl => exact shows_silent trivial rfl (by rw [hControl]; rfl)
  · next hControl => exact shows_silent trivial rfl (by rw [hControl]; rfl)
  · next hControl => exact shows_silent trivial rfl (by rw [hControl]; rfl)
  · next hControl => exact shows_silent trivial rfl (by rw [hControl]; rfl)
  · exact shows_silent trivial rfl rfl

private theorem shows_complete {value : Option (Option ν)} :
    m.Shows closing .rests (stagesOf m.control) (m.complete value) := by
  unfold complete
  split
  · next hControl => exact shows_silent trivial rfl (by rw [hControl]; rfl)
  · exact shows_silent trivial rfl rfl

private theorem shows_deliver {value : Option ν} (hClear : m.poisoned = false)
    (hAll : m.HasToldAll) (hFocus : m.focus = .deliver value)
    (hGoesOn : (m.deliver value).poisoned = false) :
    m.Shows closing m.deed (stagesOf m.control) (m.deliver value) := by
  unfold deliver at hGoesOn ⊢
  cases hControl : m.control with
  | nil =>
      rw [show m.deed = .rests by simp only [Machine.deed, hFocus, hControl]]
      exact shows_silent trivial rfl (congrArg stagesOf hControl)
  | cons waiting below =>
      rw [hControl] at hGoesOn
      have hPopped : ({ m with control := below } : Machine ν).HasToldAll := hAll
      cases waiting with
      | guarding scope =>
          rw [show m.deed = .unshields scope.mark by
            simp only [Machine.deed, hFocus, hControl]]
          exact shows_discreet (discreet_popDispatch _ _) trivial hPopped rfl hGoesOn
            fun _ _ _ => ⟨rfl, rfl⟩
      | body region =>
          refine shows_perform hGoesOn fun context escape left hContext hOk _ => ?_
          have hLeft := tells_claimEscape.of_ok hOk
          have hDeed (deed : Option Exception → Deed) :
              m.answering (Context.claimEscape m.registry.slots region.visit) deed =
                deed escape :=
            answering_ok hContext hOk
          cases escape with
          | none =>
              rw [show m.deed = .rests by
                simp only [Machine.deed, hFocus, hControl, hDeed]]
              exact ⟨told_stored hPopped hContext hLeft, .returns (.inl rfl), trivial⟩
          | some exception =>
              rw [show m.deed = .reports region.visit exception by
                simp only [Machine.deed, hFocus, hControl, hDeed]]
              exact ⟨told_stored hPopped hContext hLeft, .reports, trivial⟩
      | handler region =>
          rw [show m.deed = .rests by simp only [Machine.deed, hFocus, hControl]]
          exact ⟨rfl, .returns (.inr rfl), trivial⟩
      | thread auto =>
          cases auto with
          | false =>
              rw [show m.deed = .rests by simp only [Machine.deed, hFocus, hControl]]
              exact shows_silent trivial rfl rfl
          | true =>
              rw [show m.deed = m.closing by simp only [Machine.deed, hFocus, hControl]]
              obtain ⟨-, hWaits, -⟩ :=
                closeThread_clear (m := { m with control := below }) hClear
              refine shows_silent (silent_closing m)
                (told_closeThread { m with control := below }) ?_
              change stagesOf ({ m with control := below } :
                Machine ν).closeThread.2.control = stagesOf below
              rw [hWaits]
      | loop times body =>
          rw [show m.deed = .rests by simp only [Machine.deed, hFocus, hControl]]
          cases times <;> exact shows_silent trivial rfl rfl
      | block word rest handles old =>
          rw [show m.deed = .rests by simp only [Machine.deed, hFocus, hControl]]
          exact shows_silent trivial rfl (congrArg stagesOf hControl)
      | _ =>
          rw [show m.deed = .rests by simp only [Machine.deed, hFocus, hControl]]
          exact shows_silent trivial rfl rfl

private theorem shows_propagate {payload : Payload} (hClear : m.poisoned = false)
    (hAll : m.HasToldAll) (hFocus : m.focus = .unwind payload)
    (hGoesOn : (m.propagate payload).poisoned = false) :
    m.Shows closing m.deed (stagesOf m.control) (m.propagate payload) := by
  unfold propagate at hGoesOn ⊢
  cases hControl : m.control with
  | nil =>
      rw [show m.deed = .rests by simp only [Machine.deed, hFocus, hControl]]
      exact shows_silent trivial rfl (congrArg stagesOf hControl)
  | cons waiting below =>
      rw [hControl] at hGoesOn
      have hPopped : ({ m with control := below } : Machine ν).poisoned = false :=
        hClear
      have hPoppedAll : ({ m with control := below } : Machine ν).HasToldAll := hAll
      cases waiting with
      | block word rest handles value =>
          rw [show m.deed = .rests by simp only [Machine.deed, hFocus, hControl]]
          cases handles <;> exact shows_silent trivial rfl rfl
      | body region =>
          cases payload with
          | raise =>
              refine shows_perform hGoesOn fun context exception left hContext hOk _ =>
                ?_
              have hDeed : m.deed = .catches region.visit exception := by
                simp only [Machine.deed, hFocus, hControl,
                  answering_ok (m := m) hContext hOk]
              have hLeft : left.told = [(region.visit.id, .matching)] ++ context.told :=
                tells_catchInFlight.of_ok hOk
              rw [hDeed]
              exact ⟨told_stored hPoppedAll hContext hLeft, .catches, trivial⟩
          | panic text =>
              rw [show m.deed = .leaves region.visit true .nothing by
                simp only [Machine.deed, hFocus, hControl]]
              exact shows_passThrough hPopped hPoppedAll rfl hGoesOn
          | termination termination =>
              rw [show m.deed = .leaves region.visit true .nothing by
                simp only [Machine.deed, hFocus, hControl]]
              exact shows_passThrough hPopped hPoppedAll rfl hGoesOn
      | handler region =>
          rw [show m.deed = .leaves region.visit true .nothing by
            simp only [Machine.deed, hFocus, hControl]]
          exact shows_passThrough hPopped hPoppedAll rfl hGoesOn
      | guarding scope => cases hGoesOn.symm.trans (poisoned_terminate _ _)
      | attempt resume =>
          have isSilent : m.deed.IsSilent := by
            simp only [Machine.deed, hFocus, hControl]
            split <;> trivial
          cases resume <;> exact shows_silent isSilent rfl rfl
      | thread auto =>
          cases auto with
          | false =>
              rw [show m.deed = .rests by simp only [Machine.deed, hFocus, hControl]]
              exact shows_silent trivial rfl rfl
          | true =>
              rw [show m.deed = m.closing by simp only [Machine.deed, hFocus, hControl]]
              obtain ⟨-, hWaits, -⟩ := dropThread_clear hPopped
              refine shows_silent (silent_closing m)
                (told_dropThread { m with control := below }) ?_
              change stagesOf ({ m with control := below } :
                Machine ν).dropThread.control = stagesOf below
              rw [hWaits]
      | _ =>
          rw [show m.deed = .rests by simp only [Machine.deed, hFocus, hControl]]
          exact shows_silent trivial rfl rfl

/-! ## One step -/

/-- What a step tells of regions, and what it does to the stages of those that code is
in, whatever the run. -/
theorem shows_step (hClear : m.poisoned = false) (hAll : m.HasToldAll)
    (hGoesOn : m.step.poisoned = false) :
    m.Shows m.closing? m.deed m.stages m.step := by
  unfold step at hGoesOn ⊢
  unfold stages
  cases hFocus : m.focus with
  | next =>
      rw [show m.deed = .rests by simp only [Machine.deed, hFocus]]
      exact shows_proceed
  | exec stmt =>
      rw [hFocus] at hGoesOn
      exact shows_exec hClear hAll hFocus hGoesOn
  | complete value =>
      rw [show m.deed = .rests by simp only [Machine.deed, hFocus]]
      exact shows_complete
  | deliver value =>
      rw [hFocus] at hGoesOn
      exact shows_deliver hClear hAll hFocus hGoesOn
  | unwind payload =>
      rw [hFocus] at hGoesOn
      exact shows_propagate hClear hAll hFocus hGoesOn
  | offer region exception =>
      rw [hFocus] at hGoesOn
      exact shows_offer hAll hFocus hGoesOn
  | leave region outcome =>
      rw [hFocus] at hGoesOn
      exact shows_leave hAll hFocus hGoesOn
  | forward exception =>
      rw [hFocus] at hGoesOn
      rw [show m.deed = .forwards exception by simp only [Machine.deed, hFocus]]
      exact shows_sent (discreet_forward exception) trivial hAll rfl hGoesOn
  | drop handle =>
      rw [hFocus] at hGoesOn
      exact shows_drop hClear hAll hFocus hGoesOn
  | leaveScope scope =>
      rw [hFocus] at hGoesOn
      exact shows_leaveScope hAll hFocus hGoesOn
  | write raising pieces =>
      rw [hFocus] at hGoesOn
      exact shows_write hAll hFocus hGoesOn
  | stopped how =>
      rw [show m.deed = .rests by simp only [Machine.deed, hFocus]]
      refine shows_silent trivial rfl ?_
      dsimp only [stages]
      rw [hFocus]

/-- Between two steps nothing is kept back. -/
theorem hasToldAll_step (hAll : m.HasToldAll) : m.step.HasToldAll := by
  intro context hContext
  cases (leads_step m).operates with
  | keeps hSame => exact hAll context (hSame.symm.trans hContext)
  | closes hClosed => cases hContext.symm.trans hClosed
  | opens hNone hConfig hNew =>
      cases hContext.symm.trans hNew
      rfl
  | annotates hBefore hAfter =>
      obtain rfl := Option.some.inj (hContext.symm.trans hAfter)
      have hJournal := hAll _ hBefore
      exact hJournal
  | performs calls hBefore hAfter =>
      cases hContext.symm.trans hAfter
      rfl

/-- A program that starts has told all there is to tell. -/
theorem hasToldAll_start (process : Process) (auto : Bool) (limits : Option Limits)
    (body : List (Stmt ν)) :
    (start process auto limits body).HasToldAll := by
  obtain ⟨fresh, hNone, hLeads⟩ := leads_start process auto limits body
  intro context hContext
  obtain ⟨config, limits, -, rfl⟩ := hLeads.opened hNone hContext
  rfl

/-- No code is in a region when a thread starts. -/
theorem stages_start (process : Process) (auto : Bool) (limits : Option Limits)
    (body : List (Stmt ν)) :
    (start process auto limits body).stages = [] := by
  let fresh : Machine ν :=
    { toProcess := process
      control := [.block "" body [] none, .thread auto]
      focus := .next }
  have hFocus := focus_openThread fresh limits
  have hControl := control_openThread fresh limits
  unfold start
  cases auto with
  | false => rfl
  | true =>
      simp only [if_true]
      generalize hOpen : openThread _ _ = opened
      change fresh.openThread limits = opened at hOpen
      obtain ⟨outcome, m⟩ := opened
      rw [hOpen] at hFocus hControl
      simp only at hFocus hControl
      have hStages : m.stages = [] := by
        rw [stages, hFocus, hControl]
        rfl
      cases outcome with
      | overflowed => rfl
      | opened => exact hStages
      | refused error => exact hStages

end

end Machine

end Unwinding
