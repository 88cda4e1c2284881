import Unwinding.Proofs.Operations

/-!
# The nodes that a context keeps

A stack never gives a node back, so the number of its nodes, live and spare, only grows.
It has to grow when an entry is put on top and no node is spare; then there are as many
nodes as entries, and never before were there so many entries. This module counts:
`Stock` is what is counted of a stack, `Along` says of a step on a context how it
changes the stocks, also if it fails, and `Tally` is what is counted along a run, the
largest depth of each stack and the exceptions that were sent on.

An exception that is sent on brings a node of its own, whether one is spare or not.

## Main results

* `fills_enter`, `empties_leave`, … — what each operation does to the stocks.
* `accounted_steps` — in every run the nodes of a stack are as many as were laid out in
  advance, or as it once had entries, and for each exception that was sent on there is
  at most one more; exactly one if the depth laid out in advance was enough.
* `sendsOnTwice_gains` — a thread that stays within the depth laid out in advance gains
  nodes.
-/

namespace Unwinding

open Context

/-! ## Stocks -/

/-- The number of entries of a stack, and of the nodes that it keeps for later.

Nodes are kept for as long as the context is, so their number only ever goes up. -/
structure Stock where
  depth : Nat
  spare : Nat

/-- All the nodes that a stack has, in use or not. -/
def Stock.nodes (stock : Stock) : Nat :=
  stock.depth + stock.spare

/-- Entries are put onto a stack, if it is one of those that the step pushes onto. Nodes
are added only where there are not enough for the entries. -/
structure Stock.Fills (pushes : StackKind → Prop) (kind : StackKind)
    (before after : Stock) : Prop where
  rises : before.depth ≤ after.depth
  nodes : after.nodes = max before.nodes after.depth
  still : ¬ pushes kind → after.depth = before.depth

/-- Entries are taken off a stack, if it is one of those that the step pops, and all
their nodes are kept. -/
structure Stock.Empties (pops : StackKind → Prop) (kind : StackKind)
    (before after : Stock) : Prop where
  falls : after.depth ≤ before.depth
  nodes : after.nodes = before.nodes
  still : ¬ pops kind → after.depth = before.depth

namespace Stock

variable {touches : StackKind → Prop} {kind : StackKind}

private theorem depth_le (stock : Stock) : stock.depth ≤ stock.nodes :=
  Nat.le_add_right _ _

instance : Std.Refl (Fills touches kind) where
  refl stock := ⟨Nat.le_refl _, (Nat.max_eq_left stock.depth_le).symm, fun _ => rfl⟩

instance : IsTrans Stock (Fills touches kind) where
  trans first second third h hNext := by
    have hRises := hNext.rises
    refine ⟨Nat.le_trans h.rises hRises, ?_,
      fun hStill => (hNext.still hStill).trans (h.still hStill)⟩
    rw [hNext.nodes, h.nodes]
    omega

instance : Std.Refl (Empties touches kind) where
  refl _ := ⟨Nat.le_refl _, rfl, fun _ => rfl⟩

instance : IsTrans Stock (Empties touches kind) where
  trans _ _ _ h hNext :=
    ⟨Nat.le_trans hNext.falls h.falls, hNext.nodes.trans h.nodes,
      fun hStill => (hNext.still hStill).trans (h.still hStill)⟩

end Stock

namespace Stack

variable {α : Type} {stack after : Stack α} {touches : StackKind → Prop}
    {kind : StackKind}

/-- What a stack has in use, and what it keeps. -/
def stock (stack : Stack α) : Stock :=
  ⟨stack.depth, stack.spare.length⟩

private theorem stock_of_live (hLive : after.live.length = stack.live.length)
    (hSpare : after.spare = stack.spare) :
    after.stock = stack.stock := by
  unfold stock
  rw [after.depth_eq, stack.depth_eq, hLive, hSpare]

/-- An entry takes the place of a spare node, if there is one. -/
theorem fills_refill {fresh : α} {write : α → α}
    (h : stack.refill fresh write = .ok after) (hPushes : touches kind) :
    Stock.Fills touches kind stack.stock after.stock := by
  unfold refill at h
  cases hRoom : stack.checkCapacity with
  | error error => rw [hRoom] at h; cases h
  | ok _ =>
      rw [hRoom] at h
      obtain rfl := Except.ok.inj h
      refine ⟨Nat.le_succ _, ?_, fun hNot => absurd hPushes hNot⟩
      change stack.depth + 1 + stack.spare.tail.length =
        max (stack.depth + stack.spare.length) (stack.depth + 1)
      rw [List.length_tail]
      omega

/-- An entry that is pushed brings its node. -/
theorem stock_push {node : α} (h : stack.push node = .ok after) :
    after.stock.depth = stack.stock.depth + 1 ∧ after.stock.spare =
      stack.stock.spare := by
  obtain ⟨hLive, hSpare⟩ := live_push h
  exact ⟨depth_of_cons hLive, congrArg List.length hSpare⟩

private theorem empties_pop {node : α} (h : stack.pop = .ok (node, after))
    (hPops : touches kind) :
    Stock.Empties touches kind stack.stock after.stock := by
  obtain ⟨hLive, hSpare⟩ := live_pop h
  have hDepth := depth_of_cons hLive
  refine ⟨?_, ?_, fun hNot => absurd hPops hNot⟩
  · change after.depth ≤ stack.depth
    omega
  · change after.depth + after.spare.length = stack.depth + stack.spare.length
    rw [hSpare, List.length_cons]
    omega

private theorem empties_truncate (stack : Stack α) (depth : Nat)
    (hPops : touches kind) :
    Stock.Empties touches kind stack.stock (stack.truncate depth).stock := by
  refine ⟨Nat.min_le_right _ _, ?_, fun hNot => absurd hPops hNot⟩
  change min depth stack.depth +
    ((stack.live.take (stack.depth - depth)).reverse ++ stack.spare).length =
    stack.depth + stack.spare.length
  rw [List.length_append, List.length_reverse, List.length_take, ← stack.depth_eq]
  omega

/-- The record that is kept comes back with the node that it had. -/
theorem empties_keepOnly {records kept : Records} {depth index : Nat}
    (h : records.keepOnly depth index = .ok kept) (hPops : touches kind) :
    Stock.Empties touches kind records.stock kept.stock := by
  unfold Records.keepOnly at h
  split at h
  · cases h
  · next hBounds =>
      cases hTake : (records.truncate (index + 1)).take with
      | error error => rw [hTake] at h; cases h
      | ok taken =>
          obtain ⟨record, rest⟩ := taken
          rw [hTake] at h
          have hPush : (rest.truncate depth).push record = .ok kept := h
          have hCut : (records.truncate (index + 1)).depth = index + 1 :=
            Nat.min_eq_left (by omega)
          have hFirst :
              Stock.Empties touches kind records.stock
              (records.truncate (index + 1)).stock :=
            empties_truncate records (index + 1) hPops
          obtain ⟨hLive, hSpare⟩ := live_take hTake
          have hRest := depth_of_cons hLive
          have hSecond :
              Stock.Empties touches kind rest.stock (rest.truncate depth).stock :=
            empties_truncate rest depth hPops
          have hLow : (rest.truncate depth).stock.depth ≤ depth := Nat.min_le_left _ _
          obtain ⟨hDepth, hKept⟩ := stock_push hPush
          have hSame :
              rest.stock.nodes + 1 = (records.truncate (index + 1)).stock.nodes := by
            change rest.depth + rest.spare.length + 1 =
              (records.truncate (index + 1)).depth + _
            rw [hSpare]
            change _ = _ + (records.truncate (index + 1)).spare.length
            omega
          refine ⟨?_, ?_, fun hNot => absurd hPops hNot⟩
          · change kept.stock.depth ≤ records.depth
            omega
          · have hCutNodes := hFirst.nodes
            have hLowNodes := hSecond.nodes
            unfold Stock.nodes at hCutNodes hLowNodes hSame ⊢
            omega

end Stack

/-! ## Steps on a context -/

namespace Context

/-- The stock of a stack of a context. -/
def stock (context : Context) : StackKind → Stock
  | .regions => context.regions.stock
  | .dispatch => context.dispatch.stock
  | .guards => context.guards.stock
  | .frames => context.frames.stock
  | .exceptions => context.records.stock

/-- The number of nodes of a stack, live and spare. -/
def nodes (context : Context) (kind : StackKind) : Nat :=
  (context.stock kind).nodes

/-- The stock of a stack knows its depth. -/
theorem stock_depth (context : Context) (kind : StackKind) :
    (context.stock kind).depth = context.depths.get kind := by
  cases kind <;> rfl

/-- How a context changes: a relation between the stocks, one for each stack. The
messages stay as long as they may be. -/
structure Along (R : StackKind → Stock → Stock → Prop) (before after : Context) :
    Prop where
  stocks : ∀ kind, R kind (before.stock kind) (after.stock kind)
  messageLimit : after.messageLimit = before.messageLimit

end Context

/-- A step takes every context along, also if it fails. -/
def Takes (R : StackKind → Stock → Stock → Prop) {α : Type} (step : Step α) : Prop :=
  ∀ context, Along R context (leftBehind (step context))

section

variable {α β : Type} {R : StackKind → Stock → Stock → Prop}

private theorem along_of_same [∀ kind, Std.Refl (R kind)] {before after : Context}
    (hStocks : after.stock = before.stock)
    (hLimit : after.messageLimit = before.messageLimit) : Along R before after :=
  ⟨fun _ => hStocks ▸ Std.Refl.refl _, hLimit⟩

private theorem takes_pure [∀ kind, Std.Refl (R kind)] (answer : α) :
    Takes R (pure answer : Step α) :=
  fun _ => along_of_same rfl rfl

private theorem takes_throw [∀ kind, Std.Refl (R kind)] (error : Error) :
    Takes R (throw error : Step α) :=
  fun _ => along_of_same rfl rfl

private theorem takes_fail [∀ kind, Std.Refl (R kind)] (cause : Corruption) :
    Takes R (fail cause : Step α) :=
  takes_throw _

private theorem takes_ofExcept [∀ kind, Std.Refl (R kind)] (outcome : Except Error α) :
    Takes R (Context.ofExcept outcome : Step α) := by
  cases outcome with
  | ok answer => exact takes_pure answer
  | error error => exact takes_throw error

private theorem takes_get {rest : Context → Step α}
    (h : ∀ context, Takes R (rest context)) :
    Takes R ((get : Step Context) >>= rest) :=
  fun context => h context context

private theorem takes_modify [∀ kind, Std.Refl (R kind)] {change : Context → Context}
    (hStocks : ∀ context, (change context).stock = context.stock)
    (hLimit : ∀ context, (change context).messageLimit = context.messageLimit) :
    Takes R (modify change : Step Unit) :=
  fun context => along_of_same (hStocks context) (hLimit context)

private theorem takes_note [∀ kind, Std.Refl (R kind)] (notice : Notice) :
    Takes R (note notice) :=
  takes_modify (fun _ => rfl) fun _ => rfl

private theorem takes_freshId [∀ kind, Std.Refl (R kind)] : Takes R freshId :=
  fun _ => along_of_same rfl rfl

private theorem takes_bind [∀ kind, IsTrans Stock (R kind)] {first : Step β}
    {rest : β → Step α} (hFirst : Takes R first)
    (hRest : ∀ answer, Takes R (rest answer)) : Takes R (first >>= rest) := by
  intro context
  have hBefore := hFirst context
  change Along R context (leftBehind (EStateM.bind first rest context))
  unfold EStateM.bind
  generalize first context = outcome at hBefore
  cases outcome with
  | error error after => exact hBefore
  | ok answer after =>
      have hAfter := hRest answer after
      exact ⟨fun kind => IsTrans.trans _ _ _ (hBefore.stocks kind) (hAfter.stocks kind),
        hAfter.messageLimit.trans hBefore.messageLimit⟩

private theorem takes_discard {step : Step α} (h : Takes R step) :
    Takes R (discard step : Step Unit) :=
  fun context => leftBehind_discard step context ▸ h context

/-! ### One stack -/

section

variable [∀ kind, Std.Refl (R kind)]

private theorem takes_onRegions {f : Stack Region → Except Error (Stack Region)}
    (h : ∀ stack after, f stack = .ok after → R .regions stack.stock after.stock) :
    Takes R (onRegions f) := by
  intro context
  rw [onRegions_eq]
  cases hOutcome : f context.regions with
  | error error => exact along_of_same rfl rfl
  | ok after =>
      exact ⟨fun kind => by
        cases kind <;> first | exact h _ _ hOutcome | exact Std.Refl.refl _, rfl⟩

private theorem takes_onDispatch {f : Stack Dispatch → Except Error (Stack Dispatch)}
    (h : ∀ stack after, f stack = .ok after → R .dispatch stack.stock after.stock) :
    Takes R (onDispatch f) := by
  intro context
  rw [onDispatch_eq]
  cases hOutcome : f context.dispatch with
  | error error => exact along_of_same rfl rfl
  | ok after =>
      exact ⟨fun kind => by
        cases kind <;> first | exact h _ _ hOutcome | exact Std.Refl.refl _, rfl⟩

private theorem takes_onGuards {f : Stack ScopeMark → Except Error (Stack ScopeMark)}
    (h : ∀ stack after, f stack = .ok after → R .guards stack.stock after.stock) :
    Takes R (onGuards f) := by
  intro context
  rw [onGuards_eq]
  cases hOutcome : f context.guards with
  | error error => exact along_of_same rfl rfl
  | ok after =>
      exact ⟨fun kind => by
        cases kind <;> first | exact h _ _ hOutcome | exact Std.Refl.refl _, rfl⟩

private theorem takes_onFrames {f : Frames → Except Error Frames}
    (h : ∀ stack after, f stack = .ok after →
      R .frames (Stack.stock stack) (Stack.stock after)) :
    Takes R (onFrames f) := by
  intro context
  rw [onFrames_eq]
  cases hOutcome : f context.frames with
  | error error => exact along_of_same rfl rfl
  | ok after =>
      exact ⟨fun kind => by
        cases kind <;> first | exact h _ _ hOutcome | exact Std.Refl.refl _, rfl⟩

private theorem takes_onRecords {f : Records → Except Error Records}
    (h : ∀ stack after, f stack = .ok after →
      R .exceptions (Stack.stock stack) (Stack.stock after)) :
    Takes R (onRecords f) := by
  intro context
  rw [onRecords_eq]
  cases hOutcome : f context.records with
  | error error => exact along_of_same rfl rfl
  | ok after =>
      exact ⟨fun kind => by
        cases kind <;> first | exact h _ _ hOutcome | exact Std.Refl.refl _, rfl⟩

end

/-! ### Operations that touch no stack -/

section

variable [∀ kind, Std.Refl (R kind)] [∀ kind, IsTrans Stock (R kind)]

/-- A region that changes its state changes no stock. -/
theorem takes_setState (visit : Visit) (state : RegionState) :
    Takes R (setState visit state) := by
  refine takes_get fun context => ?_
  split
  · split
    · refine takes_bind (takes_note _) fun _ => takes_modify (fun context => ?_)
        fun _ => rfl
      funext kind
      cases kind with
      | regions => exact Stack.stock_of_live (List.length_modifyHead) rfl
      | _ => rfl
    · exact takes_fail _
  · exact takes_fail _

omit [∀ kind, IsTrans Stock (R kind)] in

/-- A record that takes a copy of what it needs changes none either. -/
theorem takes_detachAbove (depth : Nat) : Takes R (detachAbove depth) := by
  refine takes_modify (fun context => ?_) fun _ => rfl
  funext kind
  cases kind with
  | exceptions => exact Stack.stock_of_live (List.length_map _) rfl
  | _ => rfl

/-- Escapes are no entries of a stack. -/
theorem takes_takeEscape (owner : Nat) : Takes R (takeEscape owner) := by
  refine takes_get fun context => ?_
  split
  · split
    · exact takes_bind (takes_modify (fun _ => rfl) fun _ => rfl) fun _ => takes_pure _
    · exact takes_pure _
  · exact takes_pure _

private theorem takes_catchInFlight (visit : Visit) :
    Takes R (catchInFlight visit) := by
  refine takes_bind (takes_setState visit .matching) fun _ => takes_get
    fun context => ?_
  split
  · exact takes_fail _
  · refine takes_bind (takes_modify (fun _ => rfl) fun _ => rfl) fun _ => takes_get
      fun context => ?_
    split
    · exact takes_fail _
    · exact takes_get fun _ => takes_pure _

end

end

/-! ## Operations that push -/

section

variable {pushes : StackKind → Prop}

private theorem fills_enterFrame {site : Site} (hFrames : pushes .frames) :
    Takes (Stock.Fills pushes) (onFrames fun frames => frames.enter site) :=
  takes_onFrames fun _ _ h => Stack.fills_refill h hFrames

/-- To enter a region pushes onto the stacks of regions, dispatch marks and frames. -/
theorem fills_enter {site : Site} {explicit : Bool} (hRegions : pushes .regions)
    (hDispatch : pushes .dispatch) (hFrames : pushes .frames) :
    Takes (Stock.Fills pushes) (enter site explicit) := by
  refine takes_get fun context => takes_bind takes_freshId fun id => ?_
  refine takes_bind (takes_onRegions fun _ _ h => Stack.fills_refill h hRegions)
    fun _ => ?_
  cases explicit with
  | true =>
      exact takes_bind (fills_enterFrame hFrames) fun _ => takes_bind (takes_note _)
        fun _ => takes_pure _
  | false =>
      refine takes_bind (takes_onDispatch fun _ _ h => Stack.fills_refill h hDispatch)
        fun _ => ?_
      refine takes_bind (fills_enterFrame hFrames) fun _ => takes_bind (takes_note _)
        fun _ => ?_
      exact takes_bind (takes_setState _ _) fun _ => takes_pure _

private theorem fills_raise {table : KindTable} {kind : Kind} {site : Site}
    {written : String} (hRecords : pushes .exceptions) :
    Takes (Stock.Fills pushes) (raise table kind site written) := by
  refine takes_get fun context =>
    takes_bind (takes_onRecords fun _ _ h => Stack.fills_refill h hRecords) fun _ => ?_
  refine takes_get fun after => ?_
  split
  · exact takes_bind (takes_modify (fun _ => rfl) fun _ => rfl) fun _ => takes_pure _
  · split
    · exact takes_pure _
    · exact takes_throw _

private theorem fills_claimEscape {slots : Slots} {visit : Visit}
    (hRecords : pushes .exceptions) :
    Takes (Stock.Fills pushes) (claimEscape slots visit) := by
  refine takes_bind (takes_takeEscape _) fun escape => ?_
  cases escape with
  | none => exact takes_pure _
  | some escape =>
      refine takes_get fun context =>
        takes_bind (takes_onRecords fun _ _ h => Stack.fills_refill h hRecords)
          fun _ => ?_
      refine takes_bind (takes_modify (fun _ => rfl) fun _ => rfl)
        fun _ => takes_bind (takes_note _) fun _ => ?_
      exact takes_bind (takes_catchInFlight _) fun _ => takes_pure _

private theorem fills_openScope {site : Site} (hGuards : pushes .guards) :
    Takes (Stock.Fills pushes) (openScope site) :=
  takes_bind takes_freshId fun _ =>
    takes_bind (takes_onGuards fun _ _ h => Stack.fills_refill h hGuards)
      fun _ => takes_pure _

private theorem fills_shield {owner : Nat} (hDispatch : pushes .dispatch) :
    Takes (Stock.Fills pushes) (shield owner) :=
  takes_get fun _ =>
    takes_bind (takes_onDispatch fun _ _ h => Stack.fills_refill h hDispatch) fun _ =>
    takes_modify (fun _ => rfl) fun _ => rfl

/-- To enter a traced call pushes a frame. -/
theorem fills_enterCall {site : Site} (hFrames : pushes .frames) :
    Takes (Stock.Fills pushes) (enterCall site) :=
  takes_get fun _ =>
    takes_bind (takes_onFrames fun _ _ h => Stack.fills_refill h hFrames)
      fun _ => takes_pure _

end

/-! ## Operations that pop -/

section

variable {pops : StackKind → Prop}

private theorem empties_popped {α : Type} {stack after : Stack α} {kind : StackKind}
    (h : stack.pop.map Prod.snd = .ok after) (hPops : pops kind) :
    Stock.Empties pops kind stack.stock after.stock := by
  cases hPop : stack.pop with
  | error error => rw [hPop] at h; cases h
  | ok popped =>
      rw [hPop] at h
      obtain rfl := Except.ok.inj h
      exact Stack.empties_pop hPop hPops

private theorem empties_truncated {α : Type} {stack after : Stack α} {kind : StackKind}
    {depth : Nat}
    (h : (.ok (stack.truncate depth) : Except Error (Stack α)) = .ok after)
    (hPops : pops kind) :
    Stock.Empties pops kind stack.stock after.stock :=
  Except.ok.inj h ▸ Stack.empties_truncate stack depth hPops

/-- To release records gives their nodes back to the stack. -/
theorem empties_releaseRecords {depth : Nat} {keep : Bool}
    (hRecords : pops .exceptions) :
    Takes (Stock.Empties pops) (releaseRecords depth keep) := by
  have truncates :
      Takes (Stock.Empties pops)
      (onRecords fun records => .ok (records.truncate depth)) :=
    takes_onRecords fun _ _ h => empties_truncated h hRecords
  refine takes_get fun context => ?_
  split
  · split
    · exact truncates
    · split
      · exact takes_bind
          (takes_onRecords fun _ _ h => Stack.empties_keepOnly h hRecords) fun _ =>
          takes_modify (fun _ => rfl) fun _ => rfl
      · exact takes_bind (takes_modify (fun _ => rfl) fun _ => rfl) fun _ => truncates
  · exact truncates

private theorem empties_reconcile {frames cut : Frames} {depth : Nat}
    {outcome : Frames.Reconciled} (h : frames.reconcile depth = .ok (outcome, cut))
    (hFrames : pops .frames) :
    Stock.Empties pops .frames (Stack.stock frames) (Stack.stock cut) := by
  unfold Frames.reconcile at h
  split at h
  · cases h
  · split at h
    · cases h
      exact Std.Refl.refl _
    · split at h
      · cases h
        exact Stack.empties_truncate frames depth hFrames
      · cases h
        exact Std.Refl.refl _

/-- To bring the frames back to a depth gives their nodes back. -/
theorem empties_reconcileFrames {depth : Nat} (hFrames : pops .frames) :
    Takes (Stock.Empties pops) (reconcileFrames depth) := by
  intro context
  change Along _ context
    (leftBehind
    (EStateM.bind (Context.ofExcept (context.frames.reconcile depth)) _ context))
  unfold EStateM.bind
  cases hCut : context.frames.reconcile depth with
  | error error => exact along_of_same rfl rfl
  | ok result =>
      obtain ⟨outcome, cut⟩ := result
      have hEmpties := empties_reconcile hCut hFrames
      have hDone (journal : List Notice) :
          Along (Stock.Empties pops) context { context with frames := cut, journal } :=
        ⟨fun kind => by
          cases kind <;> first | exact hEmpties | exact Std.Refl.refl _, rfl⟩
      cases outcome with
      | balanced => exact hDone _
      | repaired count innermost => exact hDone _

private theorem empties_popDispatch {owner : Nat} {purpose : Purpose}
    (hDispatch : pops .dispatch) :
    Takes (Stock.Empties pops) (popDispatch owner purpose) := by
  refine takes_get fun context => ?_
  cases context.dispatch.top? with
  | none => exact takes_throw _
  | some mark =>
      dsimp only
      generalize (if mark.isGuard = true then Purpose.guard else Purpose.region) = found
      split
      · refine takes_bind (takes_onDispatch fun _ _ h => empties_popped h hDispatch)
          fun _ => ?_
        cases mark with
        | region owner => exact takes_pure _
        | guard owner parked => exact takes_modify (fun _ => rfl) fun _ => rfl
      · exact takes_fail _

private theorem empties_beginHandling {visit : Visit} (hDispatch : pops .dispatch) :
    Takes (Stock.Empties pops) (beginHandling visit) :=
  takes_bind (empties_popDispatch hDispatch) fun _ => takes_setState _ _

/-- So it is with the dispatch mark of a region that ends. -/
theorem empties_dropDispatch {visit : Visit} (hDispatch : pops .dispatch) :
    Takes (Stock.Empties pops) (dropDispatch visit) := by
  refine takes_get fun context => ?_
  split
  · split
    · exact takes_onDispatch fun _ _ h => empties_popped h hDispatch
    · exact takes_pure _
  · exact takes_pure _

private theorem empties_leaveFrame (hFrames : pops .frames) :
    Takes (Stock.Empties pops) (onFrames Frames.leave) :=
  takes_onFrames fun _ _ h => empties_popped h hFrames

/-- The check at the end of a region touches nothing. -/
theorem takes_balance {R : StackKind → Stock → Stock → Prop} [∀ kind, Std.Refl (R kind)]
    (visit : Visit) (unwinding : Bool) :
    Takes R (do
      let context ← get
      let carried := unwinding && context.inFlight == some visit.entry.exceptions
      let now := context.depths
      let exit := if carried then { now with exceptions := now.exceptions - 1 } else now
      unless (exit.mismatches visit.entry).isEmpty do
        fail (.regionUnbalanced visit.site visit.entry exit)) := by
  refine takes_get fun context => ?_
  dsimp only
  generalize (if (unwinding && context.inFlight == some visit.entry.exceptions) =
    true then { context.depths with exceptions := context.depths.exceptions - 1 } else
    context.depths) = exit
  split
  · exact takes_pure _
  · exact takes_fail _

/-- What leaving a region does once its escape is out of the way. -/
theorem empties_leaveEmptied (visit : Visit) (unwinding : Bool)
    (hRegions : pops .regions) (hDispatch : pops .dispatch) (hFrames : pops .frames)
    (hRecords : pops .exceptions) :
    let emptied : Step Unit := do
      dropDispatch visit
      let entry := visit.entry
      releaseRecords entry.exceptions unwinding
      detachAbove entry.frames
      let top := (← get).regions.top?
      onRegions fun regions => regions.pop.map Prod.snd
      onFrames Frames.leave
      if let some region := top then
        note (.regionMoved region.visit.id region.visit.site region.state .outside)
      let context ← get
      let carried := unwinding && context.inFlight == some entry.exceptions
      let now := context.depths
      let exit := if carried then { now with exceptions := now.exceptions - 1 } else now
      unless (exit.mismatches entry).isEmpty do
        fail (.regionUnbalanced visit.site entry exit)
    Takes (Stock.Empties pops) emptied := by
  refine takes_bind (empties_dropDispatch hDispatch)
    fun _ => takes_bind (empties_releaseRecords hRecords) fun _ => ?_
  refine takes_bind (takes_detachAbove _) fun _ => takes_get fun context => ?_
  refine takes_bind (takes_onRegions fun _ _ h => empties_popped h hRegions) fun _ => ?_
  refine takes_bind (empties_leaveFrame hFrames) fun _ => ?_
  cases context.regions.top? with
  | none => exact takes_balance visit unwinding
  | some region =>
      exact takes_bind (takes_note _) fun _ => takes_balance visit unwinding

/-- To leave a region gives back the nodes of everything that it had on the stacks. -/
theorem empties_leave {visit : Visit} {unwinding : Bool} (hRegions : pops .regions)
    (hDispatch : pops .dispatch) (hFrames : pops .frames)
    (hRecords : pops .exceptions) :
    Takes (Stock.Empties pops) (leave visit unwinding) := by
  refine takes_bind (takes_setState _ _) fun _ => takes_bind (takes_takeEscape _)
    fun escape => ?_
  have hRest := empties_leaveEmptied visit unwinding hRegions hDispatch hFrames hRecords
  cases escape with
  | none => exact hRest
  | some escape => exact takes_bind (takes_note _) fun _ => hRest

private theorem empties_abandon {visit : Visit} (hPops : ∀ kind, pops kind) :
    Takes (Stock.Empties pops) (abandon visit) := by
  refine takes_get fun context => takes_bind (takes_note _) fun _ => ?_
  refine takes_bind (empties_releaseRecords (hPops _))
    fun _ => takes_bind (takes_detachAbove _) fun _ => ?_
  refine takes_bind (takes_onRegions fun _ _ h => empties_truncated h (hPops _))
    fun _ => ?_
  refine takes_bind (takes_onDispatch fun _ _ h => empties_truncated h (hPops _))
    fun _ => ?_
  refine takes_bind (takes_onGuards fun _ _ h => empties_truncated h (hPops _))
    fun _ => ?_
  refine takes_bind (empties_reconcileFrames (hPops _)) fun _ => takes_get
    fun after => ?_
  split
  · exact takes_fail _
  · refine takes_get fun _ => ?_
    split
    · exact takes_note _
    · exact takes_modify (fun _ => rfl) fun _ => rfl

private theorem empties_closeScope {mark : Nat} (hGuards : pops .guards) :
    Takes (Stock.Empties pops) (closeScope mark) := by
  refine takes_get fun context => ?_
  split
  · exact takes_throw _
  · split
    · exact takes_onGuards fun _ _ h => empties_popped h hGuards
    · exact takes_fail _

private theorem empties_leaveCall {entry : Depths} {unwinding : Bool}
    (hFrames : pops .frames) :
    Takes (Stock.Empties pops) (leaveCall entry unwinding) := by
  refine takes_bind (takes_detachAbove _)
    fun _ => takes_bind (empties_reconcileFrames hFrames) fun _ => ?_
  refine takes_bind (empties_leaveFrame hFrames) fun _ => ?_
  cases unwinding with
  | true => exact takes_pure _
  | false =>
      refine takes_get fun context => ?_
      dsimp only [Bool.false_eq_true, if_false]
      split
      · exact takes_pure _
      · exact takes_fail _

end

/-! ## All operations -/

/-- An exception that is sent on brings its node. -/
def Stock.Admits (kind : StackKind) (before after : Stock) : Prop :=
  after = before ∨ kind = .exceptions ∧
    after = { before with depth := before.depth + 1 }

private theorem admits_forward {exception : Exception} :
    Takes Stock.Admits (forward exception) := by
  intro context
  have still : Along Stock.Admits context context := ⟨fun _ => .inl rfl, rfl⟩
  change Along _ context
    (leftBehind
    ((if context.hasHandler = true then _ else pure (some exception) : Step _) context))
  cases context.hasHandler with
  | false => exact still
  | true =>
      change Along _ context
        (leftBehind
        (EStateM.bind (onRecords fun records => records.readmit exception) _ context))
      unfold EStateM.bind
      rw [onRecords_eq]
      cases hPush : context.records.readmit exception with
      | error error => exact still
      | ok pushed =>
          obtain ⟨hDepth, hSpare⟩ := Stack.stock_push hPush
          have hStock :
              pushed.stock =
              ⟨context.records.stock.depth + 1, context.records.stock.spare⟩ := by
            rw [← hDepth, ← hSpare]
          refine ⟨fun kind => ?_, rfl⟩
          cases kind with
          | exceptions => exact .inr ⟨rfl, hStock⟩
          | _ => exact .inl rfl

namespace Operation

/-- What an operation does to the stocks. -/
def moves : Operation → StackKind → Stock → Stock → Prop
  | .enter _ _ =>
    Stock.Fills fun kind => kind = .regions ∨ kind = .dispatch ∨ kind = .frames
  | .leave _ _ => Stock.Empties fun kind => kind ≠ .guards
  | .abandon _ => Stock.Empties fun _ => True
  | .catchInFlight _ => Stock.Fills fun _ => False
  | .claimEscape _ _ => Stock.Fills fun kind => kind = .exceptions
  | .beginHandling _ => Stock.Empties fun kind => kind = .dispatch
  | .measure _ _ => Stock.Fills fun _ => False
  | .raise _ _ _ _ => Stock.Fills fun kind => kind = .exceptions
  | .forward _ => Stock.Admits
  | .openScope _ => Stock.Fills fun kind => kind = .guards
  | .closeScope _ => Stock.Empties fun kind => kind = .guards
  | .shield _ => Stock.Fills fun kind => kind = .dispatch
  | .unshield _ => Stock.Empties fun kind => kind = .dispatch
  | .enterCall _ => Stock.Fills fun kind => kind = .frames
  | .leaveCall _ _ => Stock.Empties fun kind => kind = .frames

/-- Every operation moves the stocks in the way that is said of it. -/
theorem takes_step (operation : Operation) : Takes operation.moves operation.step := by
  cases operation with
  | enter site explicit =>
      exact takes_discard (fills_enter (.inl rfl) (.inr (.inl rfl)) (.inr (.inr rfl)))
  | leave visit unwinding =>
      exact takes_discard (empties_leave (by simp) (by simp) (by simp) (by simp))
  | abandon visit => exact takes_discard (empties_abandon fun _ => trivial)
  | catchInFlight visit =>
      exact takes_discard (R := Stock.Fills fun _ => False) (takes_catchInFlight visit)
  | claimEscape slots visit => exact takes_discard (fills_claimEscape rfl)
  | beginHandling visit => exact takes_discard (empties_beginHandling rfl)
  | measure table kind =>
      exact takes_discard (R := Stock.Fills fun _ => False)
        (takes_bind (takes_ofExcept _) fun _ => takes_get fun _ => takes_pure _)
  | raise table kind site written => exact takes_discard (fills_raise rfl)
  | forward exception => exact takes_discard admits_forward
  | openScope site => exact takes_discard (fills_openScope rfl)
  | closeScope mark => exact takes_discard (empties_closeScope rfl)
  | shield mark => exact takes_discard (fills_shield rfl)
  | unshield mark => exact takes_discard (empties_popDispatch rfl)
  | enterCall site => exact takes_discard (fills_enterCall rfl)
  | leaveCall entry unwinding => exact takes_discard (empties_leaveCall rfl)

/-- An operation sends an exception on, or it only pushes, or it only pops. -/
theorem moves_cases (operation : Operation) :
    (∃ exception, operation = .forward exception) ∨
    (∀ exception, operation ≠ .forward exception) ∧
      ((∃ pushes, operation.moves = Stock.Fills pushes) ∨ ∃ pops,
        operation.moves = Stock.Empties pops) := by
  cases operation with
  | forward exception => exact .inl ⟨exception, rfl⟩
  | leave visit unwinding => exact .inr ⟨by simp, .inr ⟨_, rfl⟩⟩
  | abandon visit => exact .inr ⟨by simp, .inr ⟨_, rfl⟩⟩
  | beginHandling visit => exact .inr ⟨by simp, .inr ⟨_, rfl⟩⟩
  | closeScope mark => exact .inr ⟨by simp, .inr ⟨_, rfl⟩⟩
  | unshield mark => exact .inr ⟨by simp, .inr ⟨_, rfl⟩⟩
  | leaveCall entry unwinding => exact .inr ⟨by simp, .inr ⟨_, rfl⟩⟩
  | _ => exact .inr ⟨by simp, .inl ⟨_, rfl⟩⟩

end Operation

/-! ## Counting along a run -/

/-- What is counted of a context since it was opened: the largest number of entries that
each stack has held, and how many exceptions were sent on.

It is counted beside the run. A stack itself does not know how deep it once was. -/
structure Tally where
  peak : StackKind → Nat
  sent : Nat

/-- Nothing has been counted yet. -/
def Tally.fresh : Tally :=
  ⟨fun _ => 0, 0⟩

namespace Machine

variable {ν : Type}

/-- The next step sends an exception on to the regions around. -/
def sends (m : Machine ν) : Bool :=
  match m.focus, m.context, m.step.context with
  | .forward _, some before, some after =>
      before.depths.exceptions < after.depths.exceptions
  | _, _, _ => false

/-- What is counted after a step. -/
def tallied (m : Machine ν) (tally : Tally) : Tally :=
  match m.step.context with
  | none => .fresh
  | some context =>
      { peak := fun kind => max (tally.peak kind) (context.depths.get kind)
        sent := tally.sent + if m.sends then 1 else 0 }

/-- What is counted after so many steps of a thread that has just been started. -/
def tally (start : Machine ν) : Nat → Tally
  | 0 => .fresh
  | count + 1 => (steps count start).tallied (start.tally count)

end Machine

/-- The nodes of a context are accounted for by what was laid out in advance and by what
was counted. -/
structure Accounted (preallocate : Nat) (tally : Tally) (context : Context) : Prop where
  /-- No stack holds more entries than it once did. -/
  reached : ∀ kind, context.depths.get kind ≤ tally.peak kind
  /-- Marks and frames never take a node that is not needed. -/
  marks : ∀ kind, kind ≠ .exceptions →
    context.nodes kind = max preallocate (tally.peak kind)
  atLeast : max preallocate (tally.peak .exceptions) ≤ context.nodes .exceptions
  /-- Records take a node more for an exception that is sent on, and for nothing
  else. -/
  atMost : context.nodes .exceptions ≤ max preallocate (tally.peak .exceptions) +
    tally.sent
  /-- If the depth laid out in advance was always enough, then they have taken one for
  each. -/
  gains : tally.peak .exceptions ≤ preallocate →
    context.nodes .exceptions = preallocate + tally.sent

private theorem accounted_new (config : Config) (limits : Limits) :
    Accounted config.preallocate .fresh (Context.new config limits) := by
  have hNodes (kind : StackKind) :
      (Context.new config limits).nodes kind = config.preallocate := by
    cases kind <;>
      simp [nodes, stock, Stack.stock, Stock.nodes, new, Frames.new, Records.new,
      Stack.reserve, Stack.empty]
  have hDepth (kind : StackKind) : (Context.new config limits).depths.get kind = 0 := by
    cases kind <;> rfl
  refine ⟨fun kind => Nat.le_of_eq (hDepth kind), fun kind _ => ?_, ?_, ?_,
    fun _ => ?_⟩ <;> rw [hNodes] <;>
    simp [Tally.fresh]

section

variable {ν : Type} {m : Machine ν} {before after : Context}

/-- What a step does to a stock of the context: an exception that is sent on brings a
node, and nothing else does. -/
inductive Machine.Counts (m : Machine ν) (kind : StackKind) (before after : Stock) :
    Prop
  | fills (keeps : kind = .exceptions → m.sends = false)
    (h : before.Fills (fun _ => True) kind after)
  | empties (keeps : kind = .exceptions → m.sends = false)
      (h : before.Empties (fun _ => True) kind after)
  | admits (sends : m.sends = true) (isException : kind = .exceptions)
      (h : after = { before with depth := before.depth + 1 })

private theorem Machine.counts_same (kind : StackKind) {stock : Stock}
    (hKeeps : kind = .exceptions → m.sends = false) :
    m.Counts kind stock stock :=
  .fills hKeeps (Std.Refl.refl stock)

/-- The operation that sends an exception on is performed where one is to be sent on,
and only there. -/
theorem Machine.Calls.forward_iff {operation : Operation} {exception : Exception}
    (h : m.Calls operation) :
    operation = .forward exception ↔ m.focus = .forward exception := by
  cases h <;> simp_all

/-- An exception is sent on if there is one more record afterwards, and where it was
about to be. -/
theorem Machine.sends_eq (hBefore : m.context = some before)
    (hAfter : m.step.context = some after) :
    m.sends = true ↔ (∃ exception, m.focus = .forward exception) ∧
      before.depths.exceptions < after.depths.exceptions := by
  unfold sends
  rw [hBefore, hAfter]
  cases m.focus <;> simp

/-- A step on the context keeps count of the nodes and of the exceptions sent on. What
does not make the records more has sent nothing on. -/
private theorem Machine.counts_step (hBefore : m.context = some before)
    (hAfter : m.step.context = some after) (kind : StackKind) :
    m.Counts kind (before.stock kind) (after.stock kind) := by
  have hSends := m.sends_eq hBefore hAfter
  have quiet (hRecords : after.depths.exceptions ≤ before.depths.exceptions) :
      m.sends = false := by
    rw [← Bool.not_eq_true, hSends]
    exact fun h => absurd h.2 (Nat.not_lt.2 hRecords)
  cases (m.leads_step).carries hBefore hAfter with
  | keeps => exact counts_same kind fun _ => quiet (Nat.le_refl _)
  | annotates text =>
      have hStock :
          (Context.stock { before with frames := (before.frames.annotate text).2 }
          kind) = before.stock kind := by
        cases kind with
        | frames => exact Stack.stock_of_live List.length_modifyHead rfl
        | _ => rfl
      rw [hStock]
      exact counts_same kind fun _ => quiet (Nat.le_refl _)
  | @performs operation calls =>
      have hTakes := (operation.takes_step before).stocks
      obtain ⟨exception, rfl⟩ | ⟨hOther, ⟨pushes, hMoves⟩ | ⟨pops, hMoves⟩⟩ :=
        operation.moves_cases
      · obtain hSame | ⟨rfl, hAdmitted⟩ := hTakes kind
        · have hStock :
              (Context.stock
              { leftBehind ((Operation.forward exception).step before) with
                journal := [] }) kind =
            before.stock kind := hSame
          rw [hStock]
          refine counts_same kind fun hKind => quiet (Nat.le_of_eq ?_)
          subst hKind
          exact congrArg Stock.depth hSame
        · refine .admits (hSends.2 ⟨⟨exception, calls.forward_iff.1 rfl⟩, ?_⟩)
            rfl hAdmitted
          exact Nat.lt_of_lt_of_eq (Nat.lt_succ_self _)
            (congrArg Stock.depth hAdmitted).symm
      · rw [hMoves] at hTakes
        have hQuiet : m.sends = false := by
          rw [← Bool.not_eq_true, hSends]
          rintro ⟨⟨exception, hFocus⟩, -⟩
          exact hOther exception (calls.forward_iff.2 hFocus)
        exact .fills (fun _ => hQuiet) ⟨(hTakes kind).rises, (hTakes kind).nodes, by
          simp⟩
      · rw [hMoves] at hTakes
        exact .empties (fun _ => quiet (hTakes .exceptions).falls)
          ⟨(hTakes kind).falls, (hTakes kind).nodes, by simp⟩

/-- What a step counts, for a context that is there before and after it. -/
theorem Machine.tallied_of_some (tally : Tally) (hAfter : m.step.context = some after) :
    m.tallied tally =
    { peak := fun kind => max (tally.peak kind) (after.depths.get kind)
      sent := tally.sent + if m.sends then 1 else 0 } := by
  unfold tallied
  rw [hAfter]

/-- A stack of marks or frames has grown to as many nodes as it needed. -/
theorem Accounted.marks_step {preallocate : Nat} {tally : Tally}
    (h : Accounted preallocate tally before) {kind : StackKind}
    (hKind : kind ≠ .exceptions)
    (hCounts : m.Counts kind (before.stock kind) (after.stock kind)) :
    (after.stock kind).nodes =
      max preallocate (max (tally.peak kind) (after.depths.get kind)) := by
  have hEqual : (before.stock kind).nodes = max preallocate (tally.peak kind) :=
    h.marks kind hKind
  have hReached := h.reached kind
  rw [← before.stock_depth kind] at hReached
  rw [← after.stock_depth kind]
  cases hCounts with
  | fills keeps hFills =>
      have hNodes := hFills.nodes
      omega
  | empties keeps hEmpties =>
      have hNodes := hEmpties.nodes
      have hFalls := hEmpties.falls
      omega
  | admits sends isException => exact absurd isException hKind

/-- The exception stack has grown to as many nodes as it needed, and by one if an
exception was sent on. -/
theorem Accounted.records_step {preallocate : Nat} {tally : Tally}
    (h : Accounted preallocate tally before)
    (hCounts : m.Counts .exceptions (before.stock .exceptions)
      (after.stock .exceptions)) :
    max preallocate (max (tally.peak .exceptions) (after.stock .exceptions).depth) ≤
      (after.stock .exceptions).nodes ∧
      (after.stock .exceptions).nodes ≤
        max preallocate (max (tally.peak .exceptions) (after.stock .exceptions).depth) +
        (tally.sent + if m.sends = true then 1 else 0) ∧
      (max (tally.peak .exceptions) (after.stock .exceptions).depth ≤ preallocate →
        (after.stock .exceptions).nodes = preallocate +
          (tally.sent + if m.sends = true then 1 else 0)) := by
  have hLeast :
      max preallocate (tally.peak .exceptions) ≤ (before.stock .exceptions).nodes :=
    h.atLeast
  have hMost :
      (before.stock .exceptions).nodes ≤ max preallocate (tally.peak .exceptions) +
      tally.sent := h.atMost
  have hGains : tally.peak .exceptions ≤ preallocate →
      (before.stock .exceptions).nodes = preallocate + tally.sent := h.gains
  have hDepth := (before.stock .exceptions).depth_le
  have hReached := h.reached .exceptions
  rw [← before.stock_depth .exceptions] at hReached
  cases hCounts with
  | fills keeps hFills =>
      have hNodes := hFills.nodes
      rw [if_neg (by rw [keeps rfl]; exact Bool.false_ne_true)]
      refine ⟨by omega, by omega, fun hLow => ?_⟩
      have hEqual := hGains (by omega)
      omega
  | empties keeps hEmpties =>
      have hNodes := hEmpties.nodes
      have hFalls := hEmpties.falls
      rw [if_neg (by rw [keeps rfl]; exact Bool.false_ne_true)]
      refine ⟨by omega, by omega, fun hLow => ?_⟩
      have hEqual := hGains (by omega)
      omega
  | admits sends isException hAdmitted =>
      have hNodes : (after.stock .exceptions).nodes = (before.stock .exceptions).nodes +
          1 := by
        rw [hAdmitted]
        exact Nat.add_right_comm _ _ _
      have hMore : (after.stock .exceptions).depth = (before.stock .exceptions).depth +
          1 := congrArg Stock.depth hAdmitted
      rw [if_pos sends]
      refine ⟨by omega, by omega, fun hLow => ?_⟩
      have hEqual := hGains (by omega)
      omega

private theorem Accounted.step {preallocate : Nat} {tally : Tally}
    (h : Accounted preallocate tally before) (hBefore : m.context = some before)
    (hAfter : m.step.context = some after) :
    Accounted preallocate (m.tallied tally) after := by
  rw [m.tallied_of_some tally hAfter]
  have hCounts := m.counts_step hBefore hAfter
  obtain ⟨hLeast, hMost, hGains⟩ := h.records_step (hCounts .exceptions)
  exact ⟨fun kind => Nat.le_max_right _ _,
    fun kind hKind => h.marks_step hKind (hCounts kind), hLeast, hMost, hGains⟩

/-- What is known of a thread after so many steps: its context is accounted for, and
without one nothing is counted. -/
structure Audited (m : Machine ν) (tally : Tally) : Prop where
  closed : m.context = none → tally = .fresh
  accounted : ∀ context, m.context = some context →
    ∃ config, m.config = some config ∧ Accounted config.preallocate tally context

private theorem Machine.Leads.accounted {fresh : Machine ν} (h : fresh.Leads m)
    (hNone : fresh.context = none) (hContext : m.context = some after) :
    ∃ config, m.config = some config ∧ Accounted config.preallocate .fresh after := by
  obtain ⟨config, limits, hConfig, rfl⟩ := h.opened hNone hContext
  exact ⟨config, hConfig, accounted_new config limits⟩

private theorem Audited.step {tally : Tally} (h : Audited m tally) :
    Audited m.step (m.tallied tally) := by
  constructor
  · intro hNone
    unfold Machine.tallied
    rw [hNone]
  · intro after hAfter
    cases hBefore : m.context with
    | some before =>
        obtain ⟨config, hConfig, hAccounted⟩ := h.accounted before hBefore
        exact ⟨config, (m.leads_step).config config hConfig,
          hAccounted.step hBefore hAfter⟩
    | none =>
        obtain ⟨config, hConfig, hAccounted⟩ := (m.leads_step).accounted hBefore hAfter
        have hQuiet : m.sends = false := by
          unfold Machine.sends
          rw [hBefore]
          cases m.focus <;> rfl
        refine ⟨config, hConfig, ?_⟩
        rw [h.closed hBefore, m.tallied_of_some _ hAfter, hQuiet]
        have hPeak (kind : StackKind) :
            max (Tally.fresh.peak kind) (after.depths.get kind) = 0 := by
          have hReached := hAccounted.reached kind
          exact Nat.le_zero.1 (Nat.max_le.2 ⟨Nat.le_refl 0, hReached⟩)
        simp only [hPeak]
        exact hAccounted

end

/-- In every run, at every point, a stack of marks or frames has as many nodes, live and
spare, as were laid out in advance or as it has held entries since the context was
opened. The exception stack has at most one node more for each exception that was sent
on since then.

What is counted is the largest depth that each stack has had, not the present one. So a
thread that stays within what was laid out in advance allocates nothing, apart from what
it sends on. -/
theorem accounted_steps {ν : Type} (process : Process) (auto : Bool)
    (limits : Option Limits) (body : List (Stmt ν)) (count : Nat) (context : Context)
    (hContext : (Machine.steps count (.start process auto limits body)).context =
      some context) :
    ∃ config, (Machine.steps count (.start process auto limits body)).config =
      some config ∧
      Accounted config.preallocate
        ((Machine.start process auto limits body).tally count) context := by
  have hAudited : Audited (Machine.steps count (.start process auto limits body))
      ((Machine.start process auto limits body).tally count) := by
    clear hContext
    induction count with
    | zero =>
        obtain ⟨fresh, hNone, hLeads⟩ := Machine.leads_start process auto limits body
        exact ⟨fun _ => rfl, fun context hContext => hLeads.accounted hNone hContext⟩
    | succ count ih =>
        rw [Machine.steps_succ]
        exact ih.step
  exact hAudited.accounted context hContext

/-- A region sends on what it does not catch, and a region around it catches it; all of
that twice. -/
def sendsOnTwice : List (Stmt Nat) :=
  [.loop 2 [.protect 1 ⟨"main", 1, "main"⟩ .run [.mk (.direct .illegalEscape) "e" []]
    [.protect 1 ⟨"main", 2, "main"⟩ .run []
      [.raise (.direct .illegalEscape) ⟨"main", 3, "main"⟩ []]]]]

/-- The law speaks of the run of `sendsOnTwice`: its exceptions are sent on twice, one
at a time. -/
theorem accounted_of_sendsOnTwice :
    ∃ (count : Nat) (context : Context) (config : Config),
      (Machine.steps count (.start {} true none sendsOnTwice)).config = some config ∧
        Accounted config.preallocate
          ((Machine.start {} true none sendsOnTwice).tally count) context ∧
        ((Machine.start {} true none sendsOnTwice).tally count).sent = 2 ∧
        context.nodes .exceptions = config.preallocate + 2 ∧ context.nodes .frames =
          config.preallocate := by
  have hRun :
    ((Machine.steps 45 (.start {} true none sendsOnTwice)).context.any fun context =>
      decide (context.nodes .exceptions = 18) && decide (context.nodes .frames = 16)) =
        true := by decide +kernel
  have hConfig : (Machine.steps 45 (.start {} true none sendsOnTwice)).config =
      some {} := by decide +kernel
  have hSent : ((Machine.start {} true none sendsOnTwice).tally 45).sent = 2 := by
    decide +kernel
  obtain ⟨context, hContext, hNodes⟩ := (Option.any_eq_true _ _).1 hRun
  rw [Bool.and_eq_true, decide_eq_true_eq, decide_eq_true_eq] at hNodes
  obtain ⟨config, hFound, hAccounted⟩ :=
    accounted_steps {} true none sendsOnTwice 45 context hContext
  obtain rfl := Option.some.inj (hConfig.symm.trans hFound)
  exact ⟨45, context, {}, hConfig, hAccounted, hSent, hNodes.1, hNodes.2⟩

/-- A thread that stays within the depth laid out in advance gains nodes: what is sent
on does not take a spare one.

Each exception that is sent on brings a node of its own, though a spare one lies right
there, and the node stays with the stack. -/
theorem sendsOnTwice_gains :
    ∃ (count : Nat) (context : Context) (config : Config),
      (Machine.steps count (.start {} true none sendsOnTwice)).context = some context ∧
        (Machine.steps count (.start {} true none sendsOnTwice)).config = some config ∧
        (∀ kind, ((Machine.start {} true none sendsOnTwice).tally count).peak kind ≤
          config.preallocate) ∧
        max config.preallocate
          (((Machine.start {} true none sendsOnTwice).tally count).peak .exceptions) <
          context.nodes .exceptions := by
  have hRun :
    ((Machine.steps 45 (.start {} true none sendsOnTwice)).context.any fun context =>
      decide (16 < context.nodes .exceptions)) = true := by decide +kernel
  have hConfig : (Machine.steps 45 (.start {} true none sendsOnTwice)).config =
      some {} := by decide +kernel
  have hPeak :
    StackKind.all.all
      (fun kind =>
      decide (((Machine.start {} true none sendsOnTwice).tally 45).peak kind ≤ 16)) =
      true := by decide +kernel
  obtain ⟨context, hContext, hNodes⟩ := (Option.any_eq_true _ _).1 hRun
  have hLow (kind : StackKind) :
      ((Machine.start {} true none sendsOnTwice).tally 45).peak kind ≤ 16 :=
    of_decide_eq_true (List.all_eq_true.1 hPeak kind kind.mem_all)
  refine ⟨45, context, {}, hContext, hConfig, hLow, ?_⟩
  rw [Nat.max_eq_left (hLow .exceptions)]
  exact of_decide_eq_true hNodes

end Unwinding
