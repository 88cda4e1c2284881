import Unwinding.Proofs.Drafts

/-!
# The marks on the stacks

Regions, guard scopes and guard bodies lie on the stacks as marks, and a mark is found
again by a number, that of the region or the scope that it belongs to. Only three
operations put a mark down. Two of them give out a ticket with it, for which they take a
number from the context; the third is for a scope that has its ticket already. Every
other operation takes marks off the top or leaves them alone, and takes no number. All
of this holds also of an operation that fails, and of a context in whatever state.

## Main results

* `Operation.marks_step` — what an operation does to the marks, and
  `Operation.nextId_step` — to the numbers.
* `Operation.Seeks.takes` — an operation that looks for a number takes off a mark that
  bears it.
-/

namespace Unwinding

open Context

/-! ## Tickets and marks -/

/-- What a thread holds for the marks that it has put down: the visit of a region, or
the number and the site of a guard scope.

It is what `enter` and `openScope` hand out, and what the operations that take a mark
away are given back. -/
inductive Ticket where
  | region (visit : Visit)
  | scope (mark : ScopeMark)
  deriving DecidableEq, Repr

/-- The number of a ticket: of all that a ticket says, the marks of a region or scope
bear only this. -/
def Ticket.id : Ticket → Nat
  | .region visit => visit.id
  | .scope mark => mark.id

/-- A mark on a stack. What state a region is in is no part of its mark. -/
inductive Mark where
  | region (visit : Visit)
  | dispatch (mark : Dispatch)
  | scope (mark : ScopeMark)
  deriving DecidableEq, Repr

/-- The number that a mark bears. -/
def Mark.id : Mark → Nat
  | .region visit => visit.id
  | .dispatch mark => mark.owner
  | .scope mark => mark.id

/-- A shield bears the number of a scope, and is put down each time that a body of the
scope runs. -/
def Mark.IsShield (mark : Mark) : Prop :=
  ∃ id parked, mark = .dispatch (.guard id parked)

/-- The marks on a stack, the newest first. Frames and records are no marks. -/
def Context.marks (context : Context) : StackKind → List Mark
  | .regions => context.regions.live.map fun region => .region region.visit
  | .dispatch => context.dispatch.live.map .dispatch
  | .guards => context.guards.live.map .scope
  | .frames => []
  | .exceptions => []

/-- There are as many marks on a stack as it is deep. -/
theorem Context.length_marks (context : Context) {kind : StackKind}
    (h : kind = .regions ∨ kind = .dispatch ∨ kind = .guards) :
    (context.marks kind).length = context.depths.get kind := by
  obtain rfl | rfl | rfl := h
  · exact List.length_map _ |>.trans context.regions.depth_eq.symm
  · exact List.length_map _ |>.trans context.dispatch.depth_eq.symm
  · exact List.length_map _ |>.trans context.guards.depth_eq.symm

/-- A new context has no marks. -/
theorem Context.marks_new (config : Config) (limits : Limits) (kind : StackKind) :
    (Context.new config limits).marks kind = [] := by
  cases kind <;> simp [marks, new, Stack.live_reserve]

namespace Operation

/-- The ticket that an operation takes a number for, whether or not there is room for
its marks then. -/
def ticket? (context : Context) : Operation → Option Ticket
  | .enter site explicit =>
    some (.region ⟨context.nextId, site, context.depths, explicit⟩)
  | .openScope site => some (.scope ⟨context.nextId, site⟩)
  | _ => none

/-- A ticket bears the number that was the next one when it was given out. -/
theorem id_of_ticket? {operation : Operation} {context : Context} {ticket : Ticket}
    (h : operation.ticket? context = some ticket) : ticket.id = context.nextId := by
  cases operation <;> cases h <;> rfl

/-- The marks that an operation puts down. -/
inductive Puts (context : Context) : Operation → StackKind → Mark → Prop
  | enters {site : Site} {explicit : Bool} :
      Puts context (.enter site explicit)
        .regions (.region ⟨context.nextId, site, context.depths, explicit⟩)
  | dispatches {site : Site} :
      Puts context (.enter site false) .dispatch (.dispatch (.region context.nextId))
  | opens {site : Site} : Puts context (.openScope site)
      .guards (.scope ⟨context.nextId, site⟩)
  | shields {id : Nat} :
      Puts context (.shield id) .dispatch (.dispatch (.guard id context.inFlight))

/-- The operations that take a mark of a certain number off a stack. One that abandons a
region looks for no number. -/
inductive Seeks : Operation → Nat → StackKind → Prop
  | leave {visit : Visit} {unwinding : Bool} :
      Seeks (.leave visit unwinding) visit.id .regions
  | beginHandling {visit : Visit} : Seeks (.beginHandling visit) visit.id .dispatch
  | closeScope {id : Nat} : Seeks (.closeScope id) id .guards
  | unshield {id : Nat} : Seeks (.unshield id) id .dispatch

end Operation

/-! ## Steps that put no mark down -/

/-- What is said here of a context. -/
def Context.labels (context : Context) : (StackKind → List Mark) × Nat :=
  (context.marks, context.nextId)

/-- Marks are taken off the stacks, from the top, and no number is taken. -/
structure Context.Sheds (before after : Context) : Prop where
  marks : ∀ kind, after.marks kind <:+ before.marks kind
  nextId : after.nextId = before.nextId

/-- A step takes marks away at most, in whatever context and also if it fails. -/
def Shedding {α : Type} (step : Step α) : Prop :=
  ∀ context, Sheds context (leftBehind (step context))

private theorem Context.Sheds.of_labels {before after : Context}
    (h : after.labels = before.labels) : before.Sheds after := by
  obtain ⟨hMarks, hId⟩ := Prod.mk.inj h
  exact ⟨fun kind => hMarks ▸ List.suffix_rfl, hId⟩

/-- Marks that may have been taken away are all there if the stack is as deep as it
was. -/
theorem Context.Sheds.marks_of_depth {before after : Context} (h : Sheds before after)
    {kind : StackKind} (hDepth : after.depths.get kind = before.depths.get kind) :
    after.marks kind = before.marks kind := by
  refine (h.marks kind).eq_of_length ?_
  cases kind with
  | regions => rw [length_marks _ (by simp), length_marks _ (by simp), hDepth]
  | dispatch => rw [length_marks _ (by simp), length_marks _ (by simp), hDepth]
  | guards => rw [length_marks _ (by simp), length_marks _ (by simp), hDepth]
  | _ => rfl

section

variable {α β : Type}

private theorem shedding_of_leaves {step : Step α} (h : Context.Leaves labels step) :
    Shedding step :=
  fun context => .of_labels (h context)

private theorem shedding_get {rest : Context → Step α}
    (h : ∀ context, Shedding (rest context)) :
    Shedding ((get : Step Context) >>= rest) :=
  fun context => h context context

private theorem shedding_bind {first : Step β} {rest : β → Step α}
    (hFirst : Shedding first) (hRest : ∀ answer, Shedding (rest answer)) :
    Shedding (first >>= rest) := by
  intro context
  have hBefore := hFirst context
  change context.Sheds (leftBehind (EStateM.bind first rest context))
  unfold EStateM.bind
  generalize first context = outcome at hBefore
  cases outcome with
  | error error after => exact hBefore
  | ok answer after =>
      have hAfter := hRest answer after
      exact ⟨fun kind => (hAfter.marks kind).trans (hBefore.marks kind),
        hAfter.nextId.trans hBefore.nextId⟩

private theorem shedding_discard {step : Step α} (h : Shedding step) :
    Shedding (discard step : Step Unit) :=
  fun context => leftBehind_discard step context ▸ h context

/-- What does not look at the marks leaves them alone, whatever comes after it. -/
theorem shedding_then {first : Step β} {rest : β → Step α}
    (hFirst : Context.Leaves labels first) (hRest : ∀ answer, Shedding (rest answer)) :
    Shedding (first >>= rest) :=
  shedding_bind (shedding_of_leaves hFirst) hRest

private theorem shedding_onRegions {f : Stack Region → Except Error (Stack Region)}
    (h : ∀ stack after, f stack = .ok after → after.live <:+ stack.live) :
    Shedding (onRegions f) := by
  intro context
  rw [onRegions_eq]
  cases hOutcome : f context.regions with
  | error error => exact .of_labels rfl
  | ok after =>
      refine ⟨fun kind => ?_, rfl⟩
      cases kind with
      | regions => exact (h _ _ hOutcome).map _
      | _ => exact List.suffix_rfl

private theorem shedding_onDispatch {f : Stack Dispatch → Except Error (Stack Dispatch)}
    (h : ∀ stack after, f stack = .ok after → after.live <:+ stack.live) :
    Shedding (onDispatch f) := by
  intro context
  rw [onDispatch_eq]
  cases hOutcome : f context.dispatch with
  | error error => exact .of_labels rfl
  | ok after =>
      refine ⟨fun kind => ?_, rfl⟩
      cases kind with
      | dispatch => exact (h _ _ hOutcome).map _
      | _ => exact List.suffix_rfl

private theorem shedding_onGuards {f : Stack ScopeMark → Except Error (Stack ScopeMark)}
    (h : ∀ stack after, f stack = .ok after → after.live <:+ stack.live) :
    Shedding (onGuards f) := by
  intro context
  rw [onGuards_eq]
  cases hOutcome : f context.guards with
  | error error => exact .of_labels rfl
  | ok after =>
      refine ⟨fun kind => ?_, rfl⟩
      cases kind with
      | guards => exact (h _ _ hOutcome).map _
      | _ => exact List.suffix_rfl

section

variable {γ : Type} {view : Context → γ}

/-- An operation on the region stack leaves alone whatever does not look at it. -/
theorem leaves_onRegions
    (h : ∀ context regions, view { context with regions } = view context)
    (f : Stack Region → Except Error (Stack Region)) :
    Context.Leaves view (onRegions f) := by
  intro context
  rw [onRegions_eq]
  cases f context.regions with
  | error error => rfl
  | ok regions => exact h context regions

/-- An operation on the dispatch stack leaves alone whatever does not look at it. -/
theorem leaves_onDispatch
    (h : ∀ context dispatch, view { context with dispatch } = view context)
    (f : Stack Dispatch → Except Error (Stack Dispatch)) :
    Context.Leaves view (onDispatch f) := by
  intro context
  rw [onDispatch_eq]
  cases f context.dispatch with
  | error error => rfl
  | ok dispatch => exact h context dispatch

/-- An operation on the marks of guard scopes leaves alone whatever does not look at
them. -/
theorem leaves_onGuards
    (h : ∀ context guards, view { context with guards } = view context)
    (f : Stack ScopeMark → Except Error (Stack ScopeMark)) :
    Context.Leaves view (onGuards f) := by
  intro context
  rw [onGuards_eq]
  cases f context.guards with
  | error error => rfl
  | ok guards => exact h context guards

/-- An operation on the frames leaves alone whatever does not look at them. -/
theorem leaves_onFrames
    (h : ∀ context frames, view { context with frames } = view context)
    (f : Frames → Except Error Frames) : Context.Leaves view (onFrames f) := by
  intro context
  rw [onFrames_eq]
  cases f context.frames with
  | error error => rfl
  | ok frames => exact h context frames

/-- An operation on the records leaves alone whatever does not look at them. -/
theorem leaves_onRecords
    (h : ∀ context records, view { context with records } = view context)
    (f : Records → Except Error Records) : Context.Leaves view (onRecords f) := by
  intro context
  rw [onRecords_eq]
  cases f context.records with
  | error error => rfl
  | ok records => exact h context records

end

end

namespace Stack

variable {α : Type} {stack after : Stack α}

/-- The top entry has been removed. -/
theorem live_popped (h : stack.pop.map Prod.snd = .ok after) :
    ∃ top, stack.live = top :: after.live := by
  cases hPop : stack.pop with
  | error error =>
      rw [hPop] at h
      cases h
  | ok popped =>
      rw [hPop] at h
      obtain rfl := Except.ok.inj h
      exact ⟨popped.1, (live_pop hPop).1⟩

private theorem suffix_popped (h : stack.pop.map Prod.snd = .ok after) :
    after.live <:+ stack.live := by
  obtain ⟨top, hLive⟩ := live_popped h
  rw [hLive]
  exact List.suffix_cons _ _

private theorem suffix_truncated {depth : Nat}
    (h : (.ok (stack.truncate depth) : Except Error (Stack α)) = .ok after) :
    after.live <:+ stack.live := by
  obtain rfl := Except.ok.inj h
  exact List.drop_suffix _ _

end Stack

/-! ### What leaves the marks alone -/

private theorem leaves_labels_setState (visit : Visit) (state : RegionState) :
    Context.Leaves labels (setState visit state) := by
  refine leaves_get fun context => ?_
  cases context.regions.top? with
  | none => exact leaves_fail _
  | some region =>
      dsimp only
      split
      · refine leaves_bind (leaves_modify fun _ => rfl) fun _ => leaves_modify
          fun context => ?_
        refine Prod.ext (funext fun kind => ?_) rfl
        cases kind with
        | regions =>
            change (context.regions.live.modifyHead _).map _ =
              context.regions.live.map _
            cases context.regions.live <;> rfl
        | _ => rfl
      · exact leaves_fail _

private theorem leaves_labels_catchInFlight (visit : Visit) :
    Context.Leaves labels (catchInFlight visit) := by
  refine leaves_bind (leaves_labels_setState visit _) fun _ => leaves_get
    fun context => ?_
  cases context.inFlight with
  | none => exact leaves_fail _
  | some index =>
      refine leaves_bind (leaves_modify fun _ => rfl) fun _ => leaves_get
        fun context => ?_
      cases context.records.get? index with
      | none => exact leaves_fail _
      | some record => exact leaves_get fun _ => leaves_pure _

private theorem leaves_labels_takeEscape (owner : Nat) :
    Context.Leaves labels (takeEscape owner) := by
  intro context
  rw [takeEscape_eq]
  split
  · split <;> rfl
  · rfl

private theorem leaves_labels_claimEscape (slots : Slots) (visit : Visit) :
    Context.Leaves labels (claimEscape slots visit) := by
  refine leaves_bind (leaves_labels_takeEscape _) fun escape => ?_
  cases escape with
  | none => exact leaves_pure _
  | some escape =>
      refine leaves_get fun _ => leaves_bind (leaves_onRecords (fun _ _ => rfl) _)
        fun _ =>
        leaves_bind (leaves_modify fun _ => rfl) fun _ => ?_
      refine leaves_bind (leaves_modify fun _ => rfl) fun _ => ?_
      exact leaves_bind (leaves_labels_catchInFlight visit) fun _ => leaves_pure _

private theorem leaves_labels_raise (table : KindTable) (kind : Kind) (site : Site)
    (written : String) :
    Context.Leaves labels (raise table kind site written) := by
  refine leaves_get fun _ => leaves_bind (leaves_onRecords (fun _ _ => rfl) _)
    fun _ => leaves_get fun raised => ?_
  split
  · exact leaves_bind (leaves_modify fun _ => rfl) fun _ => leaves_pure _
  · cases raised.current? with
    | none => exact leaves_throw _
    | some exception => exact leaves_pure _

private theorem leaves_labels_forward (exception : Exception) :
    Context.Leaves labels (forward exception) := by
  refine leaves_get fun context => ?_
  split
  · exact leaves_bind (leaves_onRecords (fun _ _ => rfl) _)
      fun _ => leaves_bind (leaves_modify fun _ => rfl) fun _ => leaves_pure _
  · exact leaves_pure _

private theorem leaves_labels_releaseRecords (depth : Nat) (keep : Bool) :
    Context.Leaves labels (releaseRecords depth keep) := by
  refine leaves_get fun context => ?_
  split
  · split
    · exact leaves_onRecords (fun _ _ => rfl) _
    · split
      · exact leaves_bind (leaves_onRecords (fun _ _ => rfl) _) fun _ => leaves_modify
          fun _ => rfl
      · exact leaves_bind (leaves_modify fun _ => rfl) fun _ => leaves_onRecords
          (fun _ _ => rfl) _
  · exact leaves_onRecords (fun _ _ => rfl) _

private theorem leaves_labels_reconcileFrames (depth : Nat) :
    Context.Leaves labels (reconcileFrames depth) := by
  intro context
  change labels
    (leftBehind
    (EStateM.bind (Context.ofExcept (context.frames.reconcile depth)) _ context)) = _
  unfold EStateM.bind
  cases context.frames.reconcile depth with
  | error error => rfl
  | ok result =>
      obtain ⟨outcome, cut⟩ := result
      cases outcome <;> rfl

private theorem leaves_labels_measure (table : KindTable) (kind : Kind) :
    Context.Leaves labels (do
    let _ ← Context.ofExcept (table.entry kind)
    return (← get).messageLimit : Step Nat) := by
  cases table.entry kind with
  | error error => exact leaves_throw _
  | ok entry => exact leaves_get fun context => leaves_pure context.messageLimit

private theorem leaves_labels_enterCall (site : Site) :
    Context.Leaves labels (enterCall site) :=
  leaves_get fun _ => leaves_bind (leaves_onFrames (fun _ _ => rfl) _)
    fun _ => leaves_pure _

private theorem leaves_labels_leaveCall (entry : Depths) (unwinding : Bool) :
    Context.Leaves labels (leaveCall entry unwinding) := by
  refine leaves_bind (leaves_modify fun _ => rfl)
    fun _ => leaves_bind (leaves_labels_reconcileFrames _) fun _ => ?_
  refine leaves_bind (leaves_onFrames (fun _ _ => rfl) _) fun _ => ?_
  cases unwinding with
  | true => exact leaves_pure _
  | false =>
      refine leaves_get fun context => ?_
      dsimp only [Bool.false_eq_true, if_false]
      split
      · exact leaves_pure _
      · exact leaves_fail _

/-! ### What takes marks away -/

private theorem shedding_popDispatch (owner : Nat) (purpose : Purpose) :
    Shedding (popDispatch owner purpose) := by
  refine shedding_get fun context => ?_
  cases context.dispatch.top? with
  | none => exact shedding_of_leaves (leaves_throw _)
  | some mark =>
      dsimp only
      generalize (if mark.isGuard = true then Purpose.guard else Purpose.region) = found
      split
      · refine shedding_bind (shedding_onDispatch fun _ _ h => Stack.suffix_popped h)
          fun _ => shedding_of_leaves ?_
        cases mark with
        | region owner => exact leaves_pure _
        | guard owner parked => exact leaves_modify fun _ => rfl
      · exact shedding_of_leaves (leaves_fail _)

private theorem shedding_dropDispatch (visit : Visit) :
    Shedding (dropDispatch visit) := by
  refine shedding_get fun context => ?_
  split
  · split
    · exact shedding_onDispatch fun _ _ h => Stack.suffix_popped h
    · exact shedding_of_leaves (leaves_pure _)
  · exact shedding_of_leaves (leaves_pure _)

/-- The check at the end of a region looks at everything and touches nothing. -/
theorem leaves_labels_balance (visit : Visit) (unwinding : Bool) :
    Context.Leaves labels (do
    let context ← get
    let carried := unwinding && context.inFlight == some visit.entry.exceptions
    let now := context.depths
    let exit := if carried then { now with exceptions := now.exceptions - 1 } else now
    unless (exit.mismatches visit.entry).isEmpty do
      fail (.regionUnbalanced visit.site visit.entry exit) : Step Unit) := by
  refine leaves_get fun context => ?_
  dsimp only
  generalize (if (unwinding && context.inFlight == some visit.entry.exceptions) =
    true then { context.depths with exceptions := context.depths.exceptions - 1 } else
    context.depths) = exit
  split
  · exact leaves_pure _
  · exact leaves_fail _

/-- A region is taken off with its mark on dispatch, whatever comes of the check at the
end. -/
theorem shedding_leaveEmptied (visit : Visit) (unwinding : Bool) :
    let emptied : Step Unit := do
      dropDispatch visit
      let entry := visit.entry
      releaseRecords entry.exceptions unwinding
      detachAbove entry.frames
      let top := (← get).regions.top?
      onRegions fun regions => regions.pop.map Prod.snd
      onFrames Frames.leave
      if let some region := top then
        note (.regionMoved region.visit.id region.visit.site region.state .outside)
      let context ← get
      let carried := unwinding && context.inFlight == some entry.exceptions
      let now := context.depths
      let exit := if carried then { now with exceptions := now.exceptions - 1 } else now
      unless (exit.mismatches entry).isEmpty do
        fail (.regionUnbalanced visit.site entry exit)
    Shedding emptied := by
  refine shedding_bind (shedding_dropDispatch _)
    fun _ => shedding_then (leaves_labels_releaseRecords _ _) fun _ => ?_
  refine shedding_then (leaves_modify fun _ => rfl) fun _ => shedding_get
    fun context => ?_
  refine shedding_bind (shedding_onRegions fun _ _ h => Stack.suffix_popped h)
    fun _ => shedding_of_leaves ?_
  refine leaves_bind (leaves_onFrames (fun _ _ => rfl) _) fun _ => ?_
  cases context.regions.top? with
  | none => exact leaves_labels_balance visit unwinding
  | some region =>
      exact leaves_bind (leaves_modify fun _ => rfl)
        fun _ => leaves_labels_balance visit unwinding

private theorem shedding_leave (visit : Visit) (unwinding : Bool) :
    Shedding (leave visit unwinding) := by
  refine shedding_then (leaves_labels_setState _ _)
    fun _ => shedding_then (leaves_labels_takeEscape _) fun escape => ?_
  have hRest := shedding_leaveEmptied visit unwinding
  cases escape with
  | none => exact hRest
  | some escape => exact shedding_then (leaves_modify fun _ => rfl) fun _ => hRest

private theorem shedding_abandon (visit : Visit) : Shedding (abandon visit) := by
  refine shedding_get fun context => shedding_then (leaves_modify fun _ => rfl)
    fun _ => ?_
  refine shedding_then (leaves_labels_releaseRecords _ _)
    fun _ => shedding_then (leaves_modify fun _ => rfl) fun _ => ?_
  refine shedding_bind (shedding_onRegions fun _ _ h => Stack.suffix_truncated h)
    fun _ => ?_
  refine shedding_bind (shedding_onDispatch fun _ _ h => Stack.suffix_truncated h)
    fun _ => ?_
  refine shedding_bind (shedding_onGuards fun _ _ h => Stack.suffix_truncated h)
    fun _ => shedding_of_leaves ?_
  refine leaves_bind (leaves_labels_reconcileFrames _) fun _ => leaves_get
    fun after => ?_
  split
  · exact leaves_fail _
  · refine leaves_get fun _ => ?_
    split
    · exact leaves_modify fun _ => rfl
    · exact leaves_modify fun _ => rfl

private theorem shedding_closeScope (id : Nat) : Shedding (closeScope id) := by
  refine shedding_get fun context => ?_
  split
  · exact shedding_of_leaves (leaves_throw _)
  · split
    · exact shedding_onGuards fun _ _ h => Stack.suffix_popped h
    · exact shedding_of_leaves (leaves_fail _)


private theorem shedding_beginHandling (visit : Visit) :
    Shedding (beginHandling visit) :=
  shedding_bind (shedding_popDispatch _ _)
    fun _ => shedding_of_leaves (leaves_labels_setState _ _)

/-! ## What puts marks down -/

private theorem leftBehind_bind {α β : Type} (first : Step β) (rest : β → Step α)
    (context : Context) :
    leftBehind ((first >>= rest) context) =
      match first context with
      | .ok answer after => leftBehind (rest answer after)
      | .error _ after => after := by
  change leftBehind (EStateM.bind first rest context) = _
  unfold EStateM.bind
  cases first context <;> rfl

namespace Operation

/-- What becomes of the marks on a stack in an operation: some are taken off, or one is
put down on top of them. -/
def Moves (operation : Operation) (before after : Context) : Prop :=
  ∀ kind, after.marks kind <:+ before.marks kind ∨
    ∃ mark, operation.Puts before kind mark ∧ after.marks kind =
      mark :: before.marks kind

variable {context : Context}

private theorem Moves.of_marks {operation : Operation} {before after : Context}
    (h : after.marks = before.marks) :
    operation.Moves before after :=
  fun _ => .inl (h ▸ List.suffix_rfl)

/-- A region is entered in three parts: its mark, its dispatch mark if it is protected,
and what puts no mark down. Each part may find no room, and then the parts before it
stay. -/
theorem moves_enter (site : Site) (explicit : Bool) (context : Context) :
    (Operation.enter site explicit).Moves context
    (leftBehind (Context.enter site explicit context)) := by
  let visit : Visit := ⟨context.nextId, site, context.depths, explicit⟩
  let counted : Context := { context with nextId := context.nextId + 1 }
  let last : Step Visit := do
    onFrames fun frames => frames.enter site
    note (.regionMoved context.nextId site .outside .entered)
    unless explicit do
      setState visit .dispatching
    return visit
  have hLast : Context.Leaves labels last := by
    refine leaves_bind (leaves_onFrames (fun _ _ => rfl) _)
      fun _ => leaves_bind (leaves_modify fun _ => rfl) fun _ => ?_
    cases explicit with
    | true => exact leaves_pure _
    | false => exact leaves_bind (leaves_labels_setState _ _) fun _ => leaves_pure _
  have hEnter : Context.enter site explicit context =
    (onRegions (fun regions => regions.place ⟨visit, .entered⟩) >>= fun _ => do
      unless explicit do
        onDispatch fun dispatch => dispatch.place (.region context.nextId)
      last) counted := rfl
  rw [hEnter, leftBehind_bind, onRegions_eq]
  cases hRegions : counted.regions.place ⟨visit, .entered⟩ with
  | error error => exact .of_marks rfl
  | ok regions =>
      let entered : Context := { counted with regions }
      have hMark : entered.marks .regions = .region visit :: context.marks .regions :=
        congrArg (List.map _) (Stack.live_place hRegions).1
      have hEntered {after : Context} (h : after.marks = entered.marks) :
          (Operation.enter site explicit).Moves context after := by
        intro kind
        rw [h]
        cases kind with
        | regions => exact .inr ⟨_, .enters, hMark⟩
        | _ => exact .inl List.suffix_rfl
      cases explicit with
      | true => exact hEntered (congrArg Prod.fst (hLast entered))
      | false =>
          suffices h : (Operation.enter site false).Moves context (leftBehind
              ((onDispatch (fun dispatch => dispatch.place (.region context.nextId)) >>=
                fun _ => last) entered)) from h
          rw [leftBehind_bind, onDispatch_eq]
          cases hDispatch : entered.dispatch.place (.region context.nextId) with
          | error error => exact hEntered rfl
          | ok dispatch =>
              have hMarks : (leftBehind (last { entered with dispatch })).marks =
                  ({ entered with dispatch } : Context).marks :=
                congrArg Prod.fst (hLast _)
              intro kind
              dsimp only [settle]
              rw [hMarks]
              cases kind with
              | regions => exact .inr ⟨_, .enters, hMark⟩
              | dispatch =>
                  exact .inr ⟨_, .dispatches,
                    congrArg (List.map Mark.dispatch) (Stack.live_place hDispatch).1⟩
              | _ => exact .inl List.suffix_rfl

private theorem moves_openScope (site : Site) (context : Context) :
    (Operation.openScope site).Moves context
    (leftBehind (Context.openScope site context)) := by
  let counted : Context := { context with nextId := context.nextId + 1 }
  have hOpen : Context.openScope site context =
      (onGuards (fun guards => guards.place ⟨context.nextId, site⟩) >>=
        fun _ => pure context.nextId) counted := rfl
  rw [hOpen, leftBehind_bind, onGuards_eq]
  cases hGuards : counted.guards.place ⟨context.nextId, site⟩ with
  | error error => exact .of_marks rfl
  | ok guards =>
      intro kind
      cases kind with
      | guards =>
          exact .inr
            ⟨_, .opens, congrArg (List.map Mark.scope) (Stack.live_place hGuards).1⟩
      | _ => exact .inl List.suffix_rfl

private theorem moves_shield (id : Nat) (context : Context) :
    (Operation.shield id).Moves context (leftBehind (Context.shield id context)) := by
  have hShield :
    Context.shield id context =
      (onDispatch (fun dispatch => dispatch.place (.guard id context.inFlight)) >>=
      fun _ =>
      modify fun context => { context with inFlight := none }) context := rfl
  rw [hShield, leftBehind_bind, onDispatch_eq]
  cases hDispatch : context.dispatch.place (.guard id context.inFlight) with
  | error error => exact .of_marks rfl
  | ok dispatch =>
      intro kind
      cases kind with
      | dispatch =>
          exact .inr
            ⟨_, .shields,
            congrArg (List.map Mark.dispatch) (Stack.live_place hDispatch).1⟩
      | _ => exact .inl List.suffix_rfl

private theorem Moves.of_sheds {operation : Operation} {before after : Context}
    (h : Sheds before after) : operation.Moves before after :=
  fun kind => .inl (h.marks kind)

/-- The operations that put no mark down. -/
theorem shedding_step {operation : Operation}
    (hEnter : ∀ site explicit, operation ≠ .enter site explicit)
    (hOpen : ∀ site, operation ≠ .openScope site)
    (hShield : ∀ id, operation ≠ .shield id) : Shedding operation.step := by
  cases operation with
  | enter site explicit => exact absurd rfl (hEnter site explicit)
  | openScope site => exact absurd rfl (hOpen site)
  | shield id => exact absurd rfl (hShield id)
  | leave visit unwinding => exact shedding_discard (shedding_leave visit unwinding)
  | abandon visit => exact shedding_discard (shedding_abandon visit)
  | beginHandling visit => exact shedding_discard (shedding_beginHandling visit)
  | closeScope id => exact shedding_discard (shedding_closeScope id)
  | unshield id => exact shedding_discard (shedding_popDispatch id .guard)
  | catchInFlight visit =>
      exact shedding_discard (shedding_of_leaves (leaves_labels_catchInFlight visit))
  | claimEscape slots visit =>
      exact shedding_discard
        (shedding_of_leaves (leaves_labels_claimEscape slots visit))
  | measure table kind =>
      exact shedding_discard (shedding_of_leaves (leaves_labels_measure table kind))
  | raise table kind site written =>
      exact shedding_discard
        (shedding_of_leaves (leaves_labels_raise table kind site written))
  | forward exception =>
      exact shedding_discard (shedding_of_leaves (leaves_labels_forward exception))
  | enterCall site =>
      exact shedding_discard (shedding_of_leaves (leaves_labels_enterCall site))
  | leaveCall entry unwinding =>
      exact shedding_discard
        (shedding_of_leaves (leaves_labels_leaveCall entry unwinding))

/-- What an operation does to the marks: it takes some away, or puts down one that is
its own. -/
theorem marks_step (operation : Operation) (context : Context) :
    operation.Moves context (leftBehind (operation.step context)) := by
  cases operation with
  | enter site explicit =>
      rw [step, leftBehind_discard]
      exact moves_enter site explicit context
  | openScope site =>
      rw [step, leftBehind_discard]
      exact moves_openScope site context
  | shield id =>
      rw [step, leftBehind_discard]
      exact moves_shield id context
  | _ => exact .of_sheds (shedding_step (by simp) (by simp) (by simp) context)

/-- An operation takes a number just if it takes it for a ticket. -/
theorem nextId_step (operation : Operation) (context : Context) :
    (leftBehind (operation.step context)).nextId = context.nextId +
    (operation.ticket? context).toList.length := by
  cases operation with
  | enter site explicit =>
      have hRest : Context.Leaves nextId (do
          let visit : Visit := ⟨context.nextId, site, context.depths, explicit⟩
          onRegions fun regions => regions.place ⟨visit, .entered⟩
          unless explicit do
            onDispatch fun dispatch => dispatch.place (.region context.nextId)
          onFrames fun frames => frames.enter site
          note (.regionMoved context.nextId site .outside .entered)
          unless explicit do
            setState visit .dispatching
          return visit) := by
        refine leaves_bind (leaves_onRegions (fun _ _ => rfl) _) fun _ => ?_
        cases explicit with
        | true =>
            refine leaves_bind (leaves_onFrames (fun _ _ => rfl) _)
              fun _ => leaves_bind (leaves_modify fun _ => rfl) fun _ => ?_
            exact leaves_pure _
        | false =>
            refine leaves_bind (leaves_onDispatch (fun _ _ => rfl) _) fun _ => ?_
            refine leaves_bind (leaves_onFrames (fun _ _ => rfl) _)
              fun _ => leaves_bind (leaves_modify fun _ => rfl) fun _ => ?_
            exact leaves_bind
              (fun context => congrArg Prod.snd (leaves_labels_setState _ _ context))
              fun _ => leaves_pure _
      rw [step, leftBehind_discard]
      exact hRest { context with nextId := context.nextId + 1 }
  | openScope site =>
      have hRest :
          Context.Leaves nextId
          (onGuards (fun guards => guards.place ⟨context.nextId, site⟩) >>=
          fun _ => pure context.nextId) :=
        leaves_bind (leaves_onGuards (fun _ _ => rfl) _) fun _ => leaves_pure _
      rw [step, leftBehind_discard]
      exact hRest { context with nextId := context.nextId + 1 }
  | shield id =>
      have hShield : Context.Leaves nextId (Context.shield id) :=
        leaves_get fun _ => leaves_bind (leaves_onDispatch (fun _ _ => rfl) _)
          fun _ => leaves_modify fun _ => rfl
      rw [step, leftBehind_discard]
      exact hShield context
  | _ => exact (shedding_step (by simp) (by simp) (by simp) context).nextId

/-! ## What takes a mark of a number away -/

section

variable {before after : Context}

/-- The answer of an operation that has answered. -/
theorem discard_eq_ok {α : Type} {step : Step α} {done : Unit}
    (h : (discard step : Step Unit) before = .ok done after) :
    ∃ answer, step before = .ok answer after := by
  change EStateM.map _ step before = _ at h
  unfold EStateM.map at h
  cases hStep : step before with
  | ok answer left =>
      rw [hStep] at h
      cases h
      exact ⟨answer, rfl⟩
  | error error left =>
      rw [hStep] at h
      cases h

/-- A region drops the innermost dispatch mark if that bears its number, whatever it is
the mark of. -/
theorem dropOwn_cases (visit : Visit) (marks : List Dispatch) :
    dropOwn visit marks = marks ∨ ∃ mark, marks = mark :: dropOwn visit marks ∧
      mark.owner = visit.id := by
  cases marks with
  | nil => exact .inl rfl
  | cons mark rest =>
      by_cases hOwn : (!visit.explicit && mark.owner == visit.id) = true
      · have hId := (Bool.and_eq_true _ _ ▸ hOwn).2
        exact .inr ⟨mark, by rw [dropOwn, if_pos hOwn], beq_iff_eq.1 hId⟩
      · exact .inl (by rw [dropOwn, if_neg hOwn])

/-- A scope that is closed has the innermost mark of all scopes. -/
theorem guards_closeScope {id : Nat} {done : Unit}
    (h : Context.closeScope id before = .ok done after) :
    ∃ mark, before.guards.live = mark :: after.guards.live ∧ mark.id = id := by
  have hEnds : Yields (Context.closeScope id before) fun _ after =>
      ∃ mark, before.guards.live = mark :: after.guards.live ∧ mark.id = id := by
    refine ends_bind (ends_get ?_)
    cases hLive : before.guards.live with
    | nil =>
        have hTop : before.guards.top? = none := by rw [Stack.top?, hLive]; rfl
        rw [hTop]
        exact trivial
    | cons mark rest =>
        rw [Stack.top?_of_live hLive]
        dsimp only
        split
        · next hId =>
            refine ends_onGuards (fun guards hPop => ?_) fun _ _ => trivial
            obtain ⟨top, hPopped⟩ := Stack.live_popped hPop
            obtain ⟨rfl, hRest⟩ := List.cons.inj (hLive.symm.trans hPopped)
            exact ⟨mark, congrArg _ hRest, hId⟩
        · exact ends_fail trivial
  exact hEnds.of_ok h

/-- An operation that looks for a number takes one mark off the stack that it is about,
and at most one off any other, and what it takes bears that number. All but the leaving
of a region are about one stack. -/
theorem Seeks.takes {operation : Operation} {id : Nat} {kind : StackKind}
    (h : operation.Seeks id kind) (hAnswers : operation.step before = .ok () after) :
    (∃ mark, before.marks kind = mark :: after.marks kind) ∧
      ∀ other, after.marks other = before.marks other ∨
        ∃ mark, before.marks other = mark :: after.marks other ∧ mark.id = id := by
  have hSheds : Sheds before after := by
    have hShedding : Shedding operation.step := by
      cases h <;> exact shedding_step (by simp) (by simp) (by simp)
    have hLeft := hShedding before
    rwa [hAnswers] at hLeft
  have hStill {pops : StackKind → Prop} {other : StackKind}
    (hMoves : operation.moves = Stock.Empties pops) (hNot : ¬ pops other) :
      after.marks other = before.marks other := by
    have hStocks := (operation.takes_step before).stocks other
    rw [hAnswers, hMoves] at hStocks
    refine hSheds.marks_of_depth ?_
    rw [← stock_depth, ← stock_depth]
    exact hStocks.still hNot
  have hOne (hMoves : operation.moves = Stock.Empties (· = kind))
      (hTop : ∃ mark, before.marks kind = mark :: after.marks kind ∧ mark.id = id) :
      (∃ mark, before.marks kind = mark :: after.marks kind) ∧
        ∀ other, after.marks other = before.marks other ∨
          ∃ mark, before.marks other = mark :: after.marks other ∧ mark.id = id := by
    refine ⟨hTop.imp fun _ hMark => hMark.1, fun other => ?_⟩
    by_cases hOther : other = kind
    · exact .inr (hOther ▸ hTop)
    · exact .inl (hStill hMoves hOther)
  cases h with
  | @leave visit unwinding =>
      obtain ⟨_, hLeave⟩ := discard_eq_ok hAnswers
      obtain ⟨region, outer, _, _, hRegions, hId, _, _, hAfter⟩ :=
        effect_leave.of_ok hLeave
      have hOuter : after.regions.live = outer :=
        (congrArg Entries.regions hAfter).trans (congrArg List.tail hRegions)
      have hTop : before.marks .regions = .region region.visit ::
          after.marks .regions :=
        congrArg (List.map _) (hRegions.trans (congrArg _ hOuter.symm))
      refine ⟨⟨_, hTop⟩, fun other => ?_⟩
      cases other with
      | regions => exact .inr ⟨_, hTop, hId⟩
      | dispatch =>
          have hLeft : after.dispatch.live = dropOwn visit before.dispatch.live :=
            congrArg Entries.dispatch hAfter
          obtain hSame | ⟨mark, hDrop, hOwner⟩ :=
            dropOwn_cases visit before.dispatch.live
          · exact .inl (congrArg (List.map Mark.dispatch) (hLeft.trans hSame))
          · exact .inr
              ⟨_, congrArg (List.map Mark.dispatch)
              (hDrop.trans (congrArg _ hLeft.symm)), hOwner⟩
      | guards => exact .inl (hStill rfl (by simp))
      | _ => exact .inl rfl
  | @beginHandling visit =>
      obtain ⟨_, hBegin⟩ := discard_eq_ok hAnswers
      obtain ⟨_, _, mark, rest, _, _, hDispatch, hOwner, hAfter⟩ :=
        effect_beginHandling.of_ok hBegin
      have hRest : after.dispatch.live = rest := congrArg Entries.dispatch hAfter
      exact hOne rfl
        ⟨_, congrArg (List.map Mark.dispatch) (hDispatch.trans (congrArg _ hRest.symm)),
        hOwner⟩
  | closeScope =>
      obtain ⟨_, hClose⟩ := discard_eq_ok hAnswers
      obtain ⟨mark, hTop, hId⟩ := guards_closeScope hClose
      exact hOne rfl ⟨_, congrArg (List.map Mark.scope) hTop, hId⟩
  | unshield =>
      obtain ⟨_, hPop⟩ := discard_eq_ok hAnswers
      obtain ⟨parked, rest, hDispatch, hAfter⟩ := effect_popShield.of_ok hPop
      have hRest : after.dispatch.live = rest := congrArg Entries.dispatch hAfter
      exact hOne rfl
        ⟨_, congrArg (List.map Mark.dispatch) (hDispatch.trans (congrArg _ hRest.symm)),
        rfl⟩

end

end Operation

end Unwinding
