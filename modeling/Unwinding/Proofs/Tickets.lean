import Unwinding.Proofs.Marks

/-!
# The tickets that a thread holds

A thread holds the tickets of its regions and scopes in handles, which stand in blocks,
and in code that waits: a protected region whose body or handler runs, a guard scope of
which a body runs. A ticket moves between them and may be lost, and nothing looks at it
before it is given back. The one way to come by a ticket is that it is given out.

This holds of every step, also of one that terminates the thread, and whatever has
become of the context that a ticket is from.

## Main results

* `Machine.hands_step` — what a thread holds after a step it held before, or is given
  out in the step.
* `Machine.Redeems.mem_tickets` — a ticket that is given back is held.
* `Machine.issues_of_mem_tickets` — so it was given out once.
-/

namespace Unwinding

open Context

variable {ν : Type}

/-! ## What a thread holds -/

/-- The ticket of a scope that is being left. -/
def Leaving.ticket (scope : Leaving ν) : Ticket :=
  .scope ⟨scope.mark, scope.site⟩

/-- The tickets that a handle stands for; a scope has one from its first registration
on. -/
def Handle.tickets : Handle ν → List Ticket
  | .region visit _ => [.region visit]
  | .guards scope => scope.mark.toList.map fun id => .scope ⟨id, scope.site⟩
  | _ => []

private theorem Handle.tickets_guards {scope : Scope ν} {id : Nat}
    (h : scope.mark = some id) :
    (Handle.guards scope).tickets = [.scope ⟨id, scope.site⟩] := by
  simp only [tickets, h, Option.toList_some, List.map_cons, List.map_nil]

/-- The tickets that waiting code holds. -/
def Resumption.tickets : Resumption ν → List Ticket
  | .block _ _ handles _ => handles.flatMap fun named => named.2.tickets
  | .body region => [.region region.visit]
  | .handler region => [.region region.visit]
  | .guarding scope => [scope.ticket]
  | _ => []

/-- The tickets of what happens next. -/
def Focus.tickets : Focus ν → List Ticket
  | .offer region _ => [.region region.visit]
  | .leave region _ => [.region region.visit]
  | .drop handle => handle.tickets
  | .leaveScope scope => [scope.ticket]
  | _ => []

/-- The tickets of the code that waits. -/
def waitingTickets (control : List (Resumption ν)) : List Ticket :=
  control.flatMap Resumption.tickets

@[simp] theorem waitingTickets_cons (waiting : Resumption ν)
    (below : List (Resumption ν)) :
    waitingTickets (waiting :: below) = waiting.tickets ++ waitingTickets below :=
  List.flatMap_cons

private theorem tickets_block {word : String} {rest : List (Stmt ν)} {name : String}
    {handle : Handle ν} {handles : List (String × Handle ν)} {value : Option ν} :
    (Resumption.block word rest ((name, handle) :: handles) value).tickets =
      handle.tickets ++ (Resumption.block word rest handles value).tickets :=
  List.flatMap_cons

namespace Handle

variable {name : String} {handle : Handle ν} {ticket : Ticket}

private theorem mem_tickets_lookup {handles : List (String × Handle ν)}
    (h : handles.lookup name = some handle) (hTicket : ticket ∈ handle.tickets) :
    ticket ∈ handles.flatMap fun named => named.2.tickets := by
  induction handles with
  | nil => cases h
  | cons first older ih =>
      rw [List.flatMap_cons, List.mem_append]
      rw [List.lookup_cons] at h
      split at h
      · cases h
        exact .inl hTicket
      · exact .inr (ih h)

/-- A handle that a name stands for is in a block. -/
theorem mem_tickets_find? {control : List (Resumption ν)}
    (h : find? name control = some handle) (hTicket : ticket ∈ handle.tickets) :
    ticket ∈ waitingTickets control := by
  induction control with
  | nil => cases h
  | cons waiting below ih =>
      rw [waitingTickets_cons, List.mem_append]
      cases waiting with
      | block word rest handles value =>
          obtain hHere | ⟨-, hBelow⟩ := Option.or_eq_some_iff.1 h
          · exact .inl (mem_tickets_lookup hHere hTicket)
          · exact .inr (ih hBelow)
      | _ => exact .inr (ih h)

private theorem mem_tickets_split? {handles rest : List (String × Handle ν)}
    (h : split? name handles = some (handle, rest)) :
    (ticket ∈ handle.tickets ∨ ticket ∈ rest.flatMap fun named => named.2.tickets) →
      ticket ∈ handles.flatMap fun named => named.2.tickets := by
  induction handles generalizing rest with
  | nil => cases h
  | cons first older ih =>
      obtain ⟨other, found⟩ := first
      unfold split? at h
      rw [List.flatMap_cons, List.mem_append]
      split at h
      · cases h
        exact id
      · obtain ⟨⟨_, left⟩, hLeft, hBoth⟩ := Option.map_eq_some_iff.1 h
        cases hBoth
        rw [List.flatMap_cons, List.mem_append]
        rintro (hTicket | hFirst | hRest)
        · exact .inr (ih hLeft (.inl hTicket))
        · exact .inl hFirst
        · exact .inr (ih hLeft (.inr hRest))

/-- A handle that is taken out of its block was held there, and so was what is left.
Unless it is in the innermost block, it is looked for in the blocks further down. -/
theorem mem_tickets_take? {control rest : List (Resumption ν)}
    (h : take? name control = some (handle, rest))
    (hTicket : ticket ∈ handle.tickets ∨ ticket ∈ waitingTickets rest) :
    ticket ∈ waitingTickets control := by
  induction control generalizing rest with
  | nil => cases h
  | cons waiting below ih =>
      rw [waitingTickets_cons, List.mem_append]
      have hDeeper
        (h : (take? name below).map (fun found => (found.1, waiting :: found.2)) =
          some (handle, rest)) :
          ticket ∈ waiting.tickets ∨ ticket ∈ waitingTickets below := by
        obtain ⟨⟨_, left⟩, hLeft, hBoth⟩ := Option.map_eq_some_iff.1 h
        cases hBoth
        rw [waitingTickets_cons, List.mem_append] at hTicket
        obtain hHandle | hFirst | hBelow := hTicket
        · exact .inr (ih hLeft (.inl hHandle))
        · exact .inl hFirst
        · exact .inr (ih hLeft (.inr hBelow))
      cases waiting with
      | block word stmts handles value =>
          unfold take? at h
          cases hSplit : split? name handles with
          | none =>
              rw [hSplit] at h
              exact hDeeper h
          | some taken =>
              obtain ⟨found, left⟩ := taken
              rw [hSplit] at h
              cases h
              rw [waitingTickets_cons, List.mem_append] at hTicket
              obtain hHandle | hFirst | hBelow := hTicket
              · exact .inl (mem_tickets_split? hSplit (.inl hHandle))
              · exact .inl (mem_tickets_split? hSplit (.inr hFirst))
              · exact .inr hBelow
      | _ => exact hDeeper h

private theorem mem_tickets_replace {handles : List (String × Handle ν)}
    (hTicket : ticket ∈ (replace name handle handles).flatMap
      fun named => named.2.tickets) :
    ticket ∈ handle.tickets ∨ ticket ∈ handles.flatMap
      fun named => named.2.tickets := by
  induction handles with
  | nil => exact .inr hTicket
  | cons first older ih =>
      unfold replace at hTicket
      rw [List.flatMap_cons, List.mem_append]
      split at hTicket <;> rw [List.flatMap_cons, List.mem_append] at hTicket
      · exact hTicket.imp id .inr
      · obtain hFirst | hOlder := hTicket
        · exact .inr (.inl hFirst)
        · exact (ih hOlder).imp id .inr

/-- What is held after a handle has been put in the place of another one. -/
theorem mem_tickets_put {control : List (Resumption ν)}
    (hTicket : ticket ∈ waitingTickets (put name handle control)) :
    ticket ∈ handle.tickets ∨ ticket ∈ waitingTickets control := by
  induction control with
  | nil => exact .inr hTicket
  | cons waiting below ih =>
      rw [waitingTickets_cons, List.mem_append]
      have hDeeper
        (hTicket : ticket ∈ waitingTickets (waiting :: put name handle below)) :
          ticket ∈ handle.tickets ∨ ticket ∈ waiting.tickets ∨
            ticket ∈ waitingTickets below := by
        rw [waitingTickets_cons, List.mem_append] at hTicket
        obtain hFirst | hBelow := hTicket
        · exact .inr (.inl hFirst)
        · exact (ih hBelow).imp id .inr
      cases waiting with
      | block word stmts handles value =>
          unfold put at hTicket
          split at hTicket
          · rw [waitingTickets_cons, List.mem_append] at hTicket
            obtain hFirst | hBelow := hTicket
            · exact (mem_tickets_replace hFirst).imp id .inl
            · exact .inr (.inr hBelow)
          · exact hDeeper hTicket
      | _ => exact hDeeper hTicket

end Handle

/-! ## What a step does to what is held -/

namespace Machine

/-- The tickets that a thread holds, in what happens next and in the code that waits.

A program has no other way to name a mark. So what it may do to the stacks is bounded by
what it holds. -/
def tickets (m : Machine ν) : List Ticket :=
  m.focus.tickets ++ waitingTickets m.control

/-- In a step of a machine an operation is performed on its context. -/
structure Performs (m after : Machine ν) (operation : Operation) (before left : Context)
    : Prop where
  calls : m.Calls operation
  context : m.context = some before
  stored : after.context = some left
  left_eq : left = { leftBehind (operation.step before) with journal := [] }

/-- In a step of a machine a number is taken for a ticket. If the operation fails then,
nobody gets the ticket. -/
def GivesOut (m after : Machine ν) (ticket : Ticket) : Prop :=
  ∃ operation before left, m.Performs after operation before left ∧
    operation.ticket? before = some ticket

/-- The ticket that an operation puts its marks down for: the one that it gives out, or
that of the scope which is being left. -/
inductive PutsFor (m : Machine ν) (before : Context) : Operation → Ticket → Prop
  | given {operation : Operation} {ticket : Ticket}
    (hTicket : operation.ticket? before = some ticket) :
      PutsFor m before operation ticket
  | shields {scope : Leaving ν} (hFocus : m.focus = .leaveScope scope) :
      PutsFor m before (.shield scope.mark) scope.ticket

/-- In a step of a machine a mark is put on a stack for a ticket, on top of the marks
that lie there. -/
def Puts (m after : Machine ν) (ticket : Ticket) (kind : StackKind) (mark : Mark)
    (below : List Mark) : Prop :=
  ∃ operation before left, m.Performs after operation before left ∧
    m.PutsFor before operation ticket ∧
    operation.Puts before kind mark ∧ before.marks kind = below ∧ left.marks kind =
      mark :: below

/-- The next step of a machine gives a ticket back, with an operation that takes its
mark off a stack. A region that is abandoned loses its ticket without that. -/
inductive Redeems (m : Machine ν) : Operation → Ticket → StackKind → Prop
  | leave {visit : Visit} {unwinding : Bool}
      (calls : m.Calls (.leave visit unwinding)) :
      Redeems m (.leave visit unwinding) (.region visit) .regions
  | beginHandling {visit : Visit} (calls : m.Calls (.beginHandling visit)) :
      Redeems m (.beginHandling visit) (.region visit) .dispatch
  | closeScope {scope : Leaving ν} (hFocus : m.focus = .leaveScope scope)
      (hBodies : scope.bodies = []) :
      Redeems m (.closeScope scope.mark) scope.ticket .guards
  | unshield {value : Option ν} {scope : Leaving ν} {below : List (Resumption ν)}
      (hFocus : m.focus = .deliver value)
      (hControl : m.control = .guarding scope :: below) :
        Redeems m (.unshield scope.mark) scope.ticket .dispatch

/-- A thread holds nothing after a step that it did not hold before, but for a ticket
that is given out. -/
def Hands (m after : Machine ν) : Prop :=
  ∀ ticket ∈ after.tickets, ticket ∈ m.tickets ∨ m.GivesOut after ticket

section

variable {m popped after : Machine ν}

private theorem Hands.of_subset (h : after.tickets ⊆ m.tickets) : m.Hands after :=
  fun _ hTicket => .inl (h hTicket)

/-- A step after which only waiting code holds anything. -/
theorem Hands.quiet (hFocus : after.focus.tickets = [])
    (hControl : waitingTickets after.control ⊆ m.tickets) :
    m.Hands after := by
  refine .of_subset ?_
  unfold tickets
  rw [hFocus]
  exact hControl

/-- An operation that is called and answers is performed. -/
theorem performs_of_ok {α : Type} {operation : Operation} {step : Step α} {answer : α}
    {before left : Context} (calls : m.Calls operation)
    (hStep : operation.step = discard step) (hContext : m.context = some before)
    (hOk : step before = .ok answer left)
    (hStored : after.context = some { left with journal := [] }) :
    m.Performs after operation before { left with journal := [] } := by
  refine ⟨calls, hContext, hStored, ?_⟩
  rw [hStep, leftBehind_discard, hOk]
  rfl

private theorem tickets_terminate (m : Machine ν) (termination : Termination) :
    (m.terminate termination).tickets = waitingTickets m.control := by
  have hFocus : (m.terminate termination).focus.tickets = [] := by
    unfold terminate installed
    cases m.config with
    | none => rfl
    | some config =>
        dsimp only
        cases config.terminator <;> dsimp only
        · split <;> rfl
        · rfl
        · rfl
        · rfl
  unfold tickets
  rw [hFocus, control_terminate]
  rfl

/-- A thread that is terminated keeps what its waiting code holds. -/
theorem hands_terminate {termination : Termination}
    (hPopped : waitingTickets popped.control ⊆ m.tickets) :
    m.Hands (popped.terminate termination) := by
  refine .of_subset fun ticket hTicket => hPopped ?_
  rwa [tickets_terminate] at hTicket

/-- A step on the context, by what follows if it answers. -/
theorem hands_perform {α : Type} {step : Step α} {next : Machine ν → α → Machine ν}
    (hPopped : waitingTickets popped.control ⊆ m.tickets)
    (hNext : ∀ before left answer, popped.context = some before →
      step before = .ok answer left →
      m.Hands (next (popped.store left) answer)) :
        m.Hands (popped.perform step next) := by
  have hFatal (stored : Machine ν) (hControl : stored.control = popped.control)
    (error : Error) (dump : Option String) :
      m.Hands (stored.fatal error dump) := by
    refine hands_terminate ?_
    rwa [control_note, hControl]
  unfold perform
  split
  · exact hFatal popped rfl _ _
  · split
    · exact hFatal popped rfl _ _
    · next before hContext =>
        split
        · next answer left hOk => exact hNext before left answer hContext hOk
        · exact hFatal (popped.store _) rfl _ _

/-! ### Statements and handles -/

private theorem mem_tickets_own {m : Machine ν} {name : String} {handle : Handle ν}
    {ticket : Ticket} (hTicket : ticket ∈ waitingTickets (m.own name handle).control) :
    ticket ∈ handle.tickets ∨ ticket ∈ waitingTickets m.control := by
  unfold own at hTicket
  split at hTicket
  · next hControl =>
      rw [hControl]
      rw [waitingTickets_cons, tickets_block, List.append_assoc, List.mem_append]
        at hTicket
      rwa [waitingTickets_cons]
  · exact .inr hTicket

/-- The code that waits holds nothing that the thread does not hold. -/
theorem waiting_subset (m : Machine ν) : waitingTickets m.control ⊆ m.tickets :=
  List.subset_append_right _ _

/-- The ticket of a region that has been entered was given out. -/
theorem givesOut_enter {site : Site} {explicit : Bool} {visit : Visit}
    {before left : Context} (calls : m.Calls (.enter site explicit))
    (hContext : m.context = some before)
    (hOk : Context.enter site explicit before = .ok visit left)
    (hStored : after.context = some { left with journal := [] }) :
    m.GivesOut after (.region visit) := by
  obtain ⟨rfl, -⟩ := effect_enter.of_ok hOk
  exact ⟨_, _, _, performs_of_ok calls rfl hContext hOk hStored, rfl⟩

/-- A ticket of what happens next, and what waiting code holds. -/
theorem held_subset (m : Machine ν) {ticket : Ticket} (h : ticket ∈ m.focus.tickets) :
    ticket :: waitingTickets m.control ⊆ m.tickets :=
  List.cons_subset.2 ⟨List.mem_append_left _ h, m.waiting_subset⟩

/-- What is acquired is the only ticket that may be new. -/
private theorem hands_acquire {name : String} {opening : Opening} {times : Nat}
    (hFocus : m.focus = .exec (.acquire name opening (times + 1))) :
    m.Hands
      (m.acquire name opening fun m => m.goto (.exec (.acquire name opening times))) :=
      by
  have owns (stored : Machine ν) {handle : Handle ν}
    (hStored : stored.control = m.control) {ticket : Ticket}
    (hTicket :
        ticket ∈
        ((stored.own name handle).goto (.exec (.acquire name opening times))).tickets) :
      ticket ∈ handle.tickets ∨ ticket ∈ m.tickets :=
    (mem_tickets_own hTicket).imp id fun h => m.waiting_subset (hStored ▸ h)
  have ownsNothing (stored : Machine ν) {handle : Handle ν}
    (hStored : stored.control = m.control) (hHandle : handle.tickets = []) :
      m.Hands ((stored.own name handle).goto (.exec (.acquire name opening times))) :=
        by
    intro ticket hTicket
    obtain hNew | hOld := owns stored hStored hTicket
    · rw [hHandle] at hNew
      cases hNew
    · exact .inl hOld
  unfold acquire
  cases opening with
  | thread limits =>
      have hControl := control_openThread m limits
      dsimp only
      generalize m.openThread limits = result at hControl
      obtain ⟨outcome, opened⟩ := result
      have hKept : waitingTickets opened.control ⊆ m.tickets :=
        hControl ▸ m.waiting_subset
      cases outcome with
      | opened => exact ownsNothing opened hControl rfl
      | refused error => exact .quiet rfl hKept
      | overflowed => exact .quiet rfl hKept
  | region site =>
      refine hands_perform m.waiting_subset fun before left visit hContext hOk ticket
        hTicket => ?_
      obtain hNew | hOld := owns (m.store left) rfl hTicket
      · obtain rfl := List.mem_singleton.1 hNew
        exact .inr
          (givesOut_enter (.openRegion hFocus) hContext hOk (context_own _ _ _))
      · exact .inl hOld
  | call site =>
      exact hands_perform m.waiting_subset fun _ left _ _ _ =>
        ownsNothing (m.store left) rfl rfl
  | guards site => exact ownsNothing m rfl rfl

private theorem hands_registerGuard {name : String} {flavor : Flavor}
    {body : List (Stmt ν)} (hFocus : m.focus = .exec (.guard name flavor body)) :
    m.Hands (m.registerGuard name flavor body) := by
  unfold registerGuard
  split
  · next scope hFind =>
      have puts {id : Nat} {ticket : Ticket}
          (hTicket :
            ticket ∈ waitingTickets
            (Handle.put name (.guards (scope.register id flavor body)) m.control)) :
          ticket = .scope ⟨id, scope.site⟩ ∨ ticket ∈ m.tickets := by
        refine (Handle.mem_tickets_put hTicket).imp (fun hNew => ?_)
          fun hOld => m.waiting_subset hOld
        have hMark : (scope.register id flavor body).mark = some id := rfl
        exact List.mem_singleton.1 (Handle.tickets_guards hMark ▸ hNew)
      dsimp only
      split
      · next mark hMark =>
          refine .quiet rfl fun ticket hTicket => ?_
          obtain rfl | hOld := puts hTicket
          · refine m.waiting_subset (Handle.mem_tickets_find? hFind ?_)
            exact Handle.tickets_guards hMark ▸ List.mem_singleton_self _
          · exact hOld
      · next hMark =>
          refine hands_perform m.waiting_subset
            fun before left mark hContext hOk ticket hTicket => ?_
          obtain rfl | hOld := puts hTicket
          · obtain ⟨rfl, -⟩ := effect_openScope.of_ok hOk
            exact .inr
              ⟨_, _, _, performs_of_ok (.openScope hFocus hFind hMark) rfl hContext hOk
              rfl, rfl⟩
          · exact .inl hOld
  · exact .quiet rfl m.waiting_subset

private theorem hands_drop {handle : Handle ν} (hFocus : m.focus = .drop handle) :
    m.Hands (m.drop handle) := by
  have hHeld : handle.tickets ⊆ m.tickets := by
    unfold tickets
    rw [hFocus]
    exact List.subset_append_left _ _
  unfold drop
  cases handle with
  | thread => exact .quiet rfl ((control_dropThread m).symm ▸ m.waiting_subset)
  | region visit inUnwinding =>
      dsimp only
      split
      · exact .quiet rfl m.waiting_subset
      · split <;> exact hands_perform m.waiting_subset fun _ _ _ _ _ =>
          .quiet rfl m.waiting_subset
  | call entry inUnwinding =>
      dsimp only
      split
      · exact .quiet rfl m.waiting_subset
      · exact hands_perform m.waiting_subset fun _ _ _ _ _ =>
          .quiet rfl m.waiting_subset
  | guards scope =>
      dsimp only
      split
      · exact .quiet rfl m.waiting_subset
      · next mark hMark =>
          split
          · exact .quiet rfl m.waiting_subset
          · refine .of_subset fun ticket hTicket => ?_
            obtain hFirst | hBelow := List.mem_append.1 hTicket
            · exact hHeld (Handle.tickets_guards hMark ▸ hFirst)
            · exact m.waiting_subset hBelow

private theorem hands_release {name : String} {how : Closing} :
    m.Hands (m.release name how) := by
  unfold release
  cases hTake : Handle.take? name m.control with
  | none => exact .quiet rfl m.waiting_subset
  | some taken =>
      obtain ⟨handle, control⟩ := taken
      have hLeft : waitingTickets control ⊆ m.tickets :=
        fun _ h => m.waiting_subset (Handle.mem_tickets_take? hTake (.inr h))
      have hHandle : handle.tickets ⊆ m.tickets :=
        fun _ h => m.waiting_subset (Handle.mem_tickets_take? hTake (.inl h))
      dsimp only
      split
      · exact .quiet rfl hLeft
      · exact hands_perform hLeft fun _ _ _ _ _ => .quiet rfl hLeft
      · have hControl := control_closeThread ({ m with control } : Machine ν)
        exact .quiet rfl (hControl.symm ▸ hLeft)
      · refine .of_subset fun ticket hTicket => ?_
        obtain hFirst | hBelow := List.mem_append.1 hTicket
        · exact hHandle hFirst
        · exact hLeft hBelow

/-! ### Raises and regions -/

private theorem hands_raise {ref : KindRef} {site : Site} {message : List (Piece ν)} :
    m.Hands (m.raise ref site message) := by
  unfold raise
  split
  · exact hands_terminate m.waiting_subset
  · exact hands_perform m.waiting_subset fun _ _ _ _ _ => .quiet rfl m.waiting_subset

/-- An exception that is sent on its way, or handed back, holds nothing. -/
theorem hands_sent (sent : Machine ν)
    (hControl : waitingTickets sent.control ⊆ m.tickets) (uncaught : Option Exception) :
    m.Hands
    (match uncaught with
      | none => sent.unwind .raise
      | some exception => sent.uncaught exception) := by
  cases uncaught with
  | none => exact .quiet rfl hControl
  | some exception => exact hands_terminate hControl

private theorem hands_write {raising : Raising} {pieces : List (Piece ν)} :
    m.Hands (m.write raising pieces) := by
  have finishes (finished : Raising) : m.Hands (m.finishRaise finished) :=
    hands_perform m.waiting_subset fun _ left uncaught _ _ =>
      hands_sent (({ m with inUse := false } : Machine ν).store left) m.waiting_subset
        uncaught
  cases pieces with
  | nil => exact finishes raising
  | cons piece rest =>
      cases piece with
      | run body => exact .quiet rfl m.waiting_subset
      | text text =>
          simp only [write]
          split
          · exact .quiet rfl m.waiting_subset
          · exact finishes _

private theorem hands_protect {levels : Nat} {site : Site} {mode : Mode}
    {clauses : List (Clause ν)} {body : List (Stmt ν)}
    (hFocus : m.focus = .exec (.protect levels site mode clauses body)) :
    m.Hands (m.protect levels site mode clauses body) := by
  refine hands_perform m.waiting_subset fun before left visit hContext hOk => ?_
  dsimp only
  split
  all_goals
    intro ticket hTicket
    obtain rfl | hOld : ticket = .region visit ∨ ticket ∈ waitingTickets m.control :=
      List.mem_cons.1 hTicket
    · exact .inr (givesOut_enter (.protect hFocus) hContext hOk rfl)
    · exact .inl (m.waiting_subset hOld)

/-- What a step on the context leaves to waiting code and to what happens next was all
held before. -/
theorem hands_performHolding {α : Type} {step : Step α}
    {next : Machine ν → α → Machine ν}
    (hPopped : waitingTickets popped.control ⊆ m.tickets)
    (hNext : ∀ left answer, (next (popped.store left) answer).tickets ⊆ m.tickets) :
    m.Hands (popped.perform step next) :=
  hands_perform hPopped fun _ left answer _ _ => .of_subset (hNext left answer)

private theorem hands_offer {region : Protected ν} {exception : Exception}
    (hFocus : m.focus = .offer region exception) :
    m.Hands (m.offer region exception) := by
  have hHeld : .region region.visit :: waitingTickets m.control ⊆ m.tickets :=
    m.held_subset (hFocus ▸ List.mem_singleton_self _)
  unfold offer
  dsimp only
  split
  · exact .of_subset hHeld
  · exact hands_performHolding m.waiting_subset fun _ _ => hHeld

private theorem hands_leave {region : Protected ν}
    {outcome : Except Exception (Option ν)} : m.Hands (m.leave region outcome) := by
  refine hands_perform m.waiting_subset fun _ left _ _ _ => ?_
  cases outcome <;> cases region.mode <;> exact .quiet rfl m.waiting_subset

private theorem hands_leaveScope {scope : Leaving ν}
    (hFocus : m.focus = .leaveScope scope) : m.Hands (m.leaveScope scope) := by
  have hHeld : scope.ticket :: waitingTickets m.control ⊆ m.tickets :=
    m.held_subset (hFocus ▸ List.mem_singleton_self _)
  unfold leaveScope
  split
  · exact hands_perform m.waiting_subset fun _ _ _ _ _ => .quiet rfl m.waiting_subset
  · split
    · exact hands_performHolding m.waiting_subset fun _ _ => hHeld
    · exact .of_subset hHeld

private theorem hands_passThrough {region : Protected ν} {payload : Payload}
    (hPopped : waitingTickets popped.control ⊆ m.tickets) :
    m.Hands (popped.passThrough region payload) := by
  unfold passThrough
  split
  · exact .quiet rfl hPopped
  · exact hands_perform hPopped fun _ _ _ _ _ => .quiet rfl hPopped

/-! ### Code that runs and code that waits -/

private theorem hands_exec {stmt : Stmt ν} (hFocus : m.focus = .exec stmt) :
    m.Hands (m.exec stmt) := by
  unfold exec
  cases stmt with
  | raise ref site message => exact hands_raise
  | protect levels site mode clauses body => exact hands_protect hFocus
  | guard scope flavor body => exact hands_registerGuard hFocus
  | release name how => exact hands_release
  | acquire name opening times =>
      cases times with
      | zero => exact .quiet rfl m.waiting_subset
      | succ times => exact hands_acquire hFocus
  | loop times body => cases times <;> exact .quiet rfl m.waiting_subset
  | annotate text =>
      dsimp only
      split <;> exact .quiet rfl m.waiting_subset
  | rethrow name =>
      dsimp only
      split <;> exact .quiet rfl m.waiting_subset
  | inspect name =>
      dsimp only
      split <;> exact .quiet rfl m.waiting_subset
  | configure config =>
      dsimp only
      split <;> exact .quiet rfl m.waiting_subset
  | declare entry =>
      dsimp only
      split
      · exact .quiet rfl m.waiting_subset
      · next kind registry notices _ =>
          have hControl := control_foldl_note notices ({ m with registry } : Machine ν)
          exact .quiet rfl (hControl.symm ▸ m.waiting_subset)
  | _ => exact .quiet rfl m.waiting_subset

/-- The innermost block goes on. One that drops a handle passes the tickets of that
handle on to the step that drops it. -/
private theorem hands_proceed : m.Hands m.proceed := by
  have hWaiting := m.waiting_subset
  unfold proceed
  split
  case h_2 _ _ hControl =>
    rw [hControl, waitingTickets_cons, tickets_block, List.append_assoc,
      ← waitingTickets_cons] at hWaiting
    exact .of_subset hWaiting
  all_goals first
    | exact .quiet rfl hWaiting
    | next hControl =>
        rw [hControl] at hWaiting
        exact .quiet rfl hWaiting

private theorem hands_complete {value : Option (Option ν)} :
    m.Hands (m.complete value) := by
  have hWaiting := m.waiting_subset
  unfold complete
  split
  · next hControl =>
      rw [hControl] at hWaiting
      exact .quiet rfl hWaiting
  · exact .quiet rfl hWaiting

private theorem hands_deliver {value : Option ν} : m.Hands (m.deliver value) := by
  have hWaiting := m.waiting_subset
  unfold deliver
  cases hControl : m.control with
  | nil => exact .quiet rfl hWaiting
  | cons waiting below =>
      rw [hControl, waitingTickets_cons] at hWaiting
      have hBelow : waitingTickets below ⊆ m.tickets :=
        List.Subset.trans (List.subset_append_right _ _) hWaiting
      cases waiting with
      | body region =>
          refine hands_performHolding hBelow fun left escape => ?_
          cases escape <;> exact hWaiting
      | handler region => exact .of_subset hWaiting
      | guarding scope => exact hands_performHolding hBelow fun _ _ => hWaiting
      | loop times body => cases times <;> exact .quiet rfl hBelow
      | thread auto =>
          cases auto with
          | false => exact .quiet rfl hBelow
          | true =>
              have hLeft :=
                control_closeThread ({ m with control := below } : Machine ν)
              exact .quiet rfl (hLeft.symm ▸ hBelow)
      | block word rest handles old => exact .quiet rfl m.waiting_subset
      | _ => exact .quiet rfl hBelow

private theorem hands_propagate {payload : Payload} :
    m.Hands (m.propagate payload) := by
  have hWaiting := m.waiting_subset
  unfold propagate
  cases hControl : m.control with
  | nil => exact .quiet rfl hWaiting
  | cons waiting below =>
      rw [hControl] at hWaiting
      have hBelow : waitingTickets below ⊆ m.tickets :=
        List.Subset.trans (List.subset_append_right _ _) hWaiting
      cases waiting with
      | block word rest handles value =>
          cases handles with
          | nil => exact .quiet rfl hBelow
          | cons first older =>
              rw [waitingTickets_cons, tickets_block, List.append_assoc,
                ← waitingTickets_cons] at hWaiting
              exact .of_subset hWaiting
      | body region =>
          cases payload with
          | raise => exact hands_performHolding hBelow fun _ _ => hWaiting
          | panic text => exact hands_passThrough hBelow
          | termination termination => exact hands_passThrough hBelow
      | handler region => exact hands_passThrough hBelow
      | guarding scope => exact hands_terminate hBelow
      | attempt resume => cases resume <;> exact .quiet rfl hBelow
      | thread auto =>
          cases auto with
          | false => exact .quiet rfl hBelow
          | true =>
              have hLeft := control_dropThread ({ m with control := below } : Machine ν)
              exact .quiet rfl (hLeft.symm ▸ hBelow)
      | _ => exact .quiet rfl hBelow

/-- Whatever a step is, what a thread holds after it was held before, or is given
out. -/
theorem hands_step (m : Machine ν) : m.Hands m.step := by
  unfold step
  cases hFocus : m.focus with
  | next => exact hands_proceed
  | exec stmt => exact hands_exec hFocus
  | complete value => exact hands_complete
  | deliver value => exact hands_deliver
  | unwind payload => exact hands_propagate
  | offer region exception => exact hands_offer hFocus
  | leave region outcome => exact hands_leave
  | forward exception =>
      exact hands_perform m.waiting_subset fun _ left uncaught _ _ =>
        hands_sent (m.store left) m.waiting_subset uncaught
  | drop handle => exact hands_drop hFocus
  | leaveScope scope => exact hands_leaveScope hFocus
  | write raising pieces => exact hands_write
  | stopped how => exact .of_subset (List.Subset.refl _)

/-! ## What is held was given out -/

section

variable {operation : Operation} {ticket : Ticket} {kind : StackKind}

/-- An operation that redeems a ticket seeks the mark of that ticket’s number. -/
theorem Redeems.seeks (h : m.Redeems operation ticket kind) :
    operation.Seeks ticket.id kind := by
  cases h with
  | leave calls => exact .leave
  | beginHandling calls => exact .beginHandling
  | closeScope hFocus hBodies => exact .closeScope
  | unshield hFocus hControl => exact .unshield

/-- A ticket that is given back is held. -/
theorem Redeems.mem_tickets (h : m.Redeems operation ticket kind) :
    ticket ∈ m.tickets := by
  have focused (h : ticket ∈ m.focus.tickets) : ticket ∈ m.tickets :=
    List.mem_append_left _ h
  have waiting (h : ticket ∈ waitingTickets m.control) : ticket ∈ m.tickets :=
    m.waiting_subset h
  cases h with
  | leave calls =>
      cases calls with
      | release hFocus hTake =>
          exact waiting
            (Handle.mem_tickets_take? hTake (.inl (List.mem_singleton_self _)))
      | dropRegion hFocus isLeft => exact focused (hFocus ▸ List.mem_singleton_self _)
      | passBody hFocus isPanic hControl =>
          exact waiting (hControl ▸ List.mem_cons_self)
      | passHandler hFocus hControl => exact waiting (hControl ▸ List.mem_cons_self)
      | leave hFocus => exact focused (hFocus ▸ List.mem_singleton_self _)
  | beginHandling calls =>
      cases calls with
      | handle hFocus => exact focused (hFocus ▸ List.mem_singleton_self _)
  | closeScope hFocus hBodies => exact focused (hFocus ▸ List.mem_singleton_self _)
  | unshield hFocus hControl => exact waiting (hControl ▸ List.mem_cons_self)

end

end

/-- A ticket is given out in the step after so many. -/
def Issues (start : Machine ν) (count : Nat) (ticket : Ticket) : Prop :=
  (steps count start).GivesOut (steps (count + 1) start) ticket

/-- A thread that has just been started holds nothing. -/
theorem tickets_start (process : Process) (auto : Bool) (limits : Option Limits)
    (body : List (Stmt ν)) :
    (start process auto limits body).tickets = [] := by
  obtain ⟨-, hCode⟩ := code_start process auto limits body
  unfold tickets
  obtain ⟨hFocus, hControl⟩ | ⟨hFocus, hControl⟩ := hCode
  all_goals
    rw [hFocus, hControl]
    rfl

/-- Whatever a thread holds was given out, if not by its present context then by an
earlier one. -/
theorem issues_of_mem_tickets (process : Process) (auto : Bool) (limits : Option Limits)
    (body : List (Stmt ν)) {now : Nat} {ticket : Ticket}
    (h : ticket ∈ (steps now (.start process auto limits body)).tickets) :
    ∃ given, given < now ∧ (Machine.start process auto limits body).Issues given
      ticket := by
  induction now with
  | zero =>
      rw [show steps 0 (start process auto limits body) =
        start process auto limits body from rfl, tickets_start] at h
      cases h
  | succ now ih =>
      rw [steps_succ] at h
      obtain hHeld | hGiven := hands_step _ ticket h
      · obtain ⟨given, hLt, hIssues⟩ := ih hHeld
        exact ⟨given, Nat.lt_succ_of_lt hLt, hIssues⟩
      · refine ⟨now, Nat.lt_succ_self now, ?_⟩
        unfold Issues
        rw [steps_succ]
        exact hGiven

end Machine

end Unwinding
