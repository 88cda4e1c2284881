import Unwinding.Proofs.Tickets

/-!
# Whose mark it is

A ticket is matched with a mark by a number alone. A context gives out each number once,
and begins to count at one. A thread may have one context after another, and nothing
stops it from keeping a ticket of a context that is gone. So what a ticket is given back
for is its own mark as far as there is one context: every mark that bears its number was
put down for a ticket of the same number, and that is the same ticket if both are of one
context. A ticket of an earlier context is given back for whatever mark now bears its
number.

Along a run, a mark is known by what it lies on: `Machine.PutBy` says that it was put
there in a certain step and has not moved since.

## Main results

* `Machine.SameContext.id_lt` — the numbers of one context.
* `Machine.putBy_steps` — where every mark comes from.
* `Machine.rightful_steps` — what a ticket is given back for, in every run.
* `staleTicket_taken` — a region is left with the ticket of another one.
-/

namespace Unwinding

open Context

variable {ν : Type}

namespace Machine

/-! ## Contexts and their tickets -/

/-- A thread has one and the same context from the state after so many steps to the
state after so many: a context that is closed is gone for one state at least. -/
def SameContext (start : Machine ν) (first last : Nat) : Prop :=
  ∀ count, first ≤ count → count ≤ last → (steps count start).context.isSome

/-- A thread closes no context in so many steps. -/
def NeverCloses (start : Machine ν) (now : Nat) : Prop :=
  ∀ count, count < now → (steps count start).context.isSome →
    (steps (count + 1) start).context.isSome

/-- A ticket was given out by the context that a thread has now.

Numbers begin anew with each context, so a ticket does not say by itself which context
it is of. -/
def Current (start : Machine ν) (now : Nat) (ticket : Ticket) : Prop :=
  ∃ given, given < now ∧ start.SameContext given now ∧ start.Issues given ticket

section

variable {start : Machine ν} {first second last now : Nat} {ticket other : Ticket}

private theorem SameContext.later (h : start.SameContext first last)
    (hLater : first ≤ second) : start.SameContext second last :=
  fun count hFrom hTo => h count (Nat.le_trans hLater hFrom) hTo

private theorem SameContext.earlier (h : start.SameContext first last)
    (hEarlier : second ≤ last) : start.SameContext first second :=
  fun count hFrom hTo => h count hFrom (Nat.le_trans hTo hEarlier)

private theorem NeverCloses.same (h : start.NeverCloses now)
    (hFirst : (steps first start).context.isSome) :
    start.SameContext first now := by
  intro count hFrom hTo
  induction hFrom with
  | refl => exact hFirst
  | step hFrom ih => exact h _ hTo (ih (Nat.le_of_succ_le hTo))

private theorem NeverCloses.current (h : start.NeverCloses now) (hLt : first < now)
    (hIssues : start.Issues first ticket) :
    start.Current now ticket := by
  have hSome : (steps first start).context.isSome := by
    obtain ⟨_, _, _, hPerforms, _⟩ := hIssues
    rw [hPerforms.context]
    rfl
  exact ⟨first, hLt, h.same hSome, hIssues⟩

/-- A ticket takes the number that is next. -/
theorem Issues.counts (h : start.Issues first ticket) :
    ∃ before left, (steps first start).context = some before ∧
      (steps (first + 1) start).context = some left ∧
      ticket.id = before.nextId ∧ left.nextId = before.nextId + 1 := by
  obtain ⟨operation, before, left, hPerforms, hTicket⟩ := h
  refine ⟨before, left, hPerforms.context, hPerforms.stored,
    Operation.id_of_ticket? hTicket, ?_⟩
  rw [hPerforms.left_eq]
  exact (operation.nextId_step before).trans (by rw [hTicket]; rfl)

/-- No step takes a number back. -/
theorem Carries.nextId_le {m : Machine ν} {before left : Context}
    (h : m.Carries before left) : before.nextId ≤ left.nextId := by
  cases h with
  | keeps => exact Nat.le_refl _
  | annotates text => exact Nat.le_refl _
  | @performs operation calls =>
      exact Nat.le_trans (Nat.le_add_right _ _)
        (Nat.le_of_eq (operation.nextId_step before).symm)

private theorem SameContext.nextId_le (h : start.SameContext first last)
    (hLe : first ≤ last) {before left : Context}
    (hFirst : (steps first start).context = some before)
    (hLast : (steps last start).context = some left) :
    before.nextId ≤ left.nextId := by
  induction hLe generalizing left with
  | refl =>
      obtain rfl := Option.some.inj (hFirst.symm.trans hLast)
      exact Nat.le_refl _
  | @step last hLe ih =>
      obtain ⟨middle, hMiddle⟩ :=
        Option.isSome_iff_exists.1 (h last hLe (Nat.le_succ _))
      rw [steps_succ] at hLast
      exact Nat.le_trans (ih (h.earlier (Nat.le_succ _)) hMiddle)
        ((leads_step _).carries hMiddle hLast).nextId_le

/-- Two tickets that one context gives out, one after the other, have different
numbers. -/
theorem SameContext.id_lt (h : start.SameContext first second) (hLt : first < second)
    (hFirst : start.Issues first ticket) (hSecond : start.Issues second other) :
    ticket.id < other.id := by
  obtain ⟨_, left, _, hLeft, hId, hNext⟩ := hFirst.counts
  obtain ⟨later, _, hLater, _, hOther, _⟩ := hSecond.counts
  have hLe := (h.later (Nat.le_succ first)).nextId_le hLt hLeft hLater
  omega

/-- What gives a ticket out: a region is opened, explicit or protected, or a scope gets
its first body. -/
theorem Calls.ticket_cases {m : Machine ν} {operation : Operation} {context : Context}
    (calls : m.Calls operation) (h : operation.ticket? context = some ticket) :
    (∃ name site times, m.focus = .exec (.acquire name (.region site) times) ∧
      operation = .enter site true) ∨
      (∃ levels site mode clauses body,
        m.focus = .exec (.protect levels site mode clauses body) ∧
        operation = .enter site false) ∨
      ∃ name flavor body scope, m.focus = .exec (.guard name flavor body) ∧
        Handle.find? name m.control = some (.guards scope) ∧
          operation = .openScope scope.site := by
  cases calls with
  | openRegion hFocus => exact .inl ⟨_, _, _, hFocus, rfl⟩
  | protect hFocus => exact .inr (.inl ⟨_, _, _, _, _, hFocus, rfl⟩)
  | openScope hFocus hFind => exact .inr (.inr ⟨_, _, _, _, hFocus, hFind, rfl⟩)
  | _ => cases h

/-- A step gives out one ticket at most. -/
theorem Issues.unique (hFirst : start.Issues first ticket)
    (hSecond : start.Issues first other) : ticket = other := by
  obtain ⟨operation, before, _, hPerforms, hTicket⟩ := hFirst
  obtain ⟨another, context, _, hAlso, hOther⟩ := hSecond
  obtain rfl := Option.some.inj (hPerforms.context.symm.trans hAlso.context)
  have hSame : operation = another := by
    obtain ⟨_, _, _, hFocus, rfl⟩ | ⟨_, _, _, _, _, hFocus, rfl⟩
        | ⟨_, _, _, _, hFocus, hFind, rfl⟩ :=
        hPerforms.calls.ticket_cases hTicket <;>
      obtain ⟨_, _, _, hFocus', rfl⟩ | ⟨_, _, _, _, _, hFocus', rfl⟩
          | ⟨_, _, _, _, hFocus', hFind', rfl⟩ :=
        hAlso.calls.ticket_cases hOther <;>
      cases hFocus.symm.trans hFocus'
    · rfl
    · rfl
    · cases hFind.symm.trans hFind'
      rfl
  exact Option.some.inj (hTicket.symm.trans (hSame ▸ hOther))

/-- The tickets of one context are told apart by their numbers. -/
theorem Current.eq (hTicket : start.Current now ticket)
    (hOther : start.Current now other) (hId : ticket.id = other.id) :
    ticket = other := by
  obtain ⟨given, hGiven, hSame, hIssues⟩ := hTicket
  obtain ⟨begun, hBegun, hAlso, hIssued⟩ := hOther
  rcases Nat.lt_trichotomy given begun with hLt | rfl | hLt
  · exact absurd hId
      (Nat.ne_of_lt ((hSame.earlier (Nat.le_of_lt hBegun)).id_lt hLt hIssues hIssued))
  · exact hIssues.unique hIssued
  · exact absurd hId.symm
      (Nat.ne_of_lt ((hAlso.earlier (Nat.le_of_lt hGiven)).id_lt hLt hIssued hIssues))

end

/-! ## Marks and who put them down -/

/-- A mark has been on a stack, above the same others, since it was put there for a
ticket in the step after so many. -/
structure PutBy (start : Machine ν) (put now : Nat) (ticket : Ticket) (kind : StackKind)
    (mark : Mark) (below : List Mark) : Prop where
  earlier : put < now
  puts : (steps put start).Puts (steps (put + 1) start) ticket kind mark below
  since : ∀ count, put < count → count ≤ now →
    ∃ context, (steps count start).context = some context ∧
      mark :: below <:+ context.marks kind

section

variable {start : Machine ν} {put now : Nat} {ticket : Ticket} {kind : StackKind}
    {mark : Mark} {below : List Mark}

private theorem PutBy.same (h : start.PutBy put now ticket kind mark below) :
    start.SameContext put now := by
  intro count hFrom hTo
  obtain rfl | hLater := Nat.eq_or_lt_of_le hFrom
  · obtain ⟨_, _, _, hPerforms, _⟩ := h.puts
    rw [hPerforms.context]
    rfl
  · obtain ⟨context, hContext, _⟩ := h.since count hLater hTo
    rw [hContext]
    rfl

/-- A mark that is still there. -/
theorem PutBy.stays (h : start.PutBy put now ticket kind mark below) {context : Context}
    (hContext : (steps (now + 1) start).context = some context)
    (hLies : mark :: below <:+ context.marks kind) :
    start.PutBy put (now + 1) ticket kind mark below := by
  refine ⟨Nat.lt_succ_of_lt h.earlier, h.puts, fun count hFrom hTo => ?_⟩
  obtain rfl | hBefore := Nat.eq_or_lt_of_le hTo
  · exact ⟨context, hContext, hLies⟩
  · exact h.since count hFrom (Nat.le_of_lt_succ hBefore)

/-- A mark that has just been put down. -/
theorem Puts.putBy
    (h : (steps now start).Puts (steps (now + 1) start) ticket kind mark below) :
    start.PutBy now (now + 1) ticket kind mark below := by
  refine ⟨Nat.lt_succ_self now, h, fun count hFrom hTo => ?_⟩
  obtain rfl : count = now + 1 := Nat.le_antisymm hTo hFrom
  obtain ⟨_, _, left, hPerforms, _, _, _, hMarks⟩ := h
  exact ⟨left, hPerforms.stored, hMarks ▸ List.suffix_rfl⟩

/-- A mark is put down for some ticket. -/
theorem Calls.putsFor {m : Machine ν} {operation : Operation} {before : Context}
    (calls : m.Calls operation) (h : operation.Puts before kind mark) :
    ∃ ticket, m.PutsFor before operation ticket := by
  cases h with
  | enters => exact ⟨_, .given rfl⟩
  | dispatches => exact ⟨_, .given rfl⟩
  | opens => exact ⟨_, .given rfl⟩
  | shields =>
      cases calls with
      | shield hFocus => exact ⟨_, .shields hFocus⟩

/-- One step: a mark that is on a stack afterwards was there before, or has been put
there. -/
theorem puts_or_lies {m after : Machine ν} (hLeads : m.Leads after) {context : Context}
    (hContext : after.context = some context)
    (hLies : mark :: below <:+ context.marks kind) :
    (∃ before, m.context = some before ∧ mark :: below <:+ before.marks kind) ∨
      ∃ ticket, m.Puts after ticket kind mark below := by
  cases hBefore : m.context with
  | none =>
      obtain ⟨config, limits, _, rfl⟩ := hLeads.opened hBefore hContext
      rw [marks_new] at hLies
      cases List.suffix_nil.1 hLies
  | some before =>
      cases hLeads.carries hBefore hContext with
      | keeps => exact .inl ⟨_, rfl, hLies⟩
      | annotates text => exact .inl ⟨before, rfl, hLies⟩
      | @performs operation calls =>
          change mark :: below <:+ (leftBehind (operation.step before)).marks
            kind at hLies
          obtain hShorter | ⟨top, hPuts, hMarks⟩ := operation.marks_step before kind
          · exact .inl ⟨before, rfl, hLies.trans hShorter⟩
          · rw [hMarks] at hLies
            obtain hTop | hBelow := List.suffix_cons_iff.1 hLies
            · obtain ⟨rfl, rfl⟩ := List.cons.inj hTop
              obtain ⟨ticket, hFor⟩ := calls.putsFor hPuts
              exact .inr ⟨ticket, operation, before, _, ⟨calls, hBefore, hContext, rfl⟩,
                hFor, hPuts, rfl, hMarks⟩
            · exact .inl ⟨before, rfl, hBelow⟩

end

/-- Every mark on the stacks of a thread was put down for a ticket, in the context that
the thread has now. -/
theorem putBy_steps (process : Process) (auto : Bool) (limits : Option Limits)
    (body : List (Stmt ν)) {now : Nat} {context : Context} {kind : StackKind}
    {mark : Mark} {below : List Mark}
    (hContext : (steps now (.start process auto limits body)).context = some context)
    (hLies : mark :: below <:+ context.marks kind) :
    ∃ put ticket, (Machine.start process auto limits body).PutBy put now ticket kind
      mark below := by
  induction now generalizing context with
  | zero =>
      obtain ⟨fresh, hNone, hLeads⟩ := leads_start process auto limits body
      obtain ⟨config, limits, _, rfl⟩ := hLeads.opened hNone hContext
      rw [marks_new] at hLies
      cases List.suffix_nil.1 hLies
  | succ now ih =>
      have hLeads :
          (steps now (.start process auto limits body)).Leads
          (steps (now + 1) (.start process auto limits body)) :=
        steps_succ now _ ▸ leads_step _
      obtain ⟨before, hBefore, hThere⟩ | ⟨ticket, hPuts⟩ :=
        puts_or_lies hLeads hContext hLies
      · obtain ⟨put, ticket, hPut⟩ := ih hBefore hThere
        exact ⟨put, ticket, hPut.stays hContext hLies⟩
      · exact ⟨now, ticket, hPuts.putBy⟩

/-! ## Tickets that are given back -/

section

variable {m after : Machine ν} {ticket : Ticket} {kind : StackKind} {mark : Mark}
    {below : List Mark}

/-- A mark is put down for the ticket that is given out with it, or it is a shield and
its ticket is held already. -/
theorem Puts.given (h : m.Puts after ticket kind mark below) :
    m.GivesOut after ticket ∨ mark.IsShield ∧ ticket ∈ m.tickets := by
  obtain ⟨operation, before, left, hPerforms, hFor, hPuts, _⟩ := h
  cases hFor with
  | given hTicket => exact .inl ⟨_, before, left, hPerforms, hTicket⟩
  | shields hFocus =>
      cases hPuts
      exact .inr
        ⟨⟨_, _, rfl⟩, List.mem_append_left _ (hFocus ▸ List.mem_singleton_self _)⟩

/-- A mark bears the number of the ticket that it is put down for. -/
theorem Puts.id_eq (h : m.Puts after ticket kind mark below) : mark.id = ticket.id := by
  obtain ⟨operation, before, left, hPerforms, hFor, hPuts, _⟩ := h
  cases hFor with
  | given hTicket => cases hPuts <;> cases hTicket <;> rfl
  | shields hFocus =>
      cases hPuts
      rfl

end

/-- Whose mark it is that is taken off a stack for a ticket: it was put down for an
owner, and has lain there since.

That the mark has lain there since means that nothing below it was exchanged either. -/
structure Rightful (start : Machine ν) (put now : Nat) (ticket owner : Ticket)
    (kind : StackKind) (mark : Mark)
    (below : List Mark) : Prop where
  putBy : start.PutBy put now owner kind mark below
  mark_id : mark.id = ticket.id
  owner_id : owner.id = ticket.id
  owner_issued : ∃ given, given ≤ put ∧ start.Issues given owner
  /-- Only shields are put down for tickets of an earlier context. -/
  owner_current : mark.IsShield ∨ start.Current now owner
  /-- A ticket of the present context is given back for its own mark, if it is for a
  mark of a ticket of that context. -/
  eq : start.Current now ticket → start.Current now owner → owner = ticket
  /-- As long as there has been one context only, every ticket is. -/
  single : start.NeverCloses now → owner = ticket

/-- A mark that bears the number of a ticket which the thread holds. -/
theorem rightful_of_id (process : Process) (auto : Bool) (limits : Option Limits)
    (body : List (Stmt ν)) {now : Nat} {context : Context} {ticket : Ticket}
    {kind : StackKind} {mark : Mark} {below : List Mark}
    (hContext : (steps now (.start process auto limits body)).context = some context)
    (hHeld : ticket ∈ (steps now (.start process auto limits body)).tickets)
    (hTop : context.marks kind = mark :: below) (hId : mark.id = ticket.id) :
    ∃ put owner, (Machine.start process auto limits body).Rightful put now ticket owner
      kind mark below := by
  have hLies : mark :: below <:+ context.marks kind := hTop ▸ List.suffix_rfl
  obtain ⟨put, owner, hPut⟩ := putBy_steps process auto limits body hContext hLies
  have hOwner : owner.id = ticket.id := hPut.puts.id_eq.symm.trans hId
  obtain ⟨given, hGiven, hIssues⟩ :=
    issues_of_mem_tickets process auto limits body hHeld
  obtain ⟨begun, hBegun, hIssued, hCurrent⟩ : ∃ begun,
    begun ≤ put ∧ (Machine.start process auto limits body).Issues begun owner ∧
      (mark.IsShield ∨ (Machine.start process auto limits body).Current now owner) := by
    obtain hNew | ⟨hShield, hMarks⟩ := hPut.puts.given
    · exact ⟨put, Nat.le_refl put, hNew, .inr ⟨put, hPut.earlier, hPut.same, hNew⟩⟩
    · obtain ⟨begun, hBegun, hIssued⟩ :=
        issues_of_mem_tickets process auto limits body hMarks
      exact ⟨begun, Nat.le_of_lt hBegun, hIssued, .inl hShield⟩
  refine ⟨put, owner, hPut, hId, hOwner, ⟨begun, hBegun, hIssued⟩, hCurrent,
    fun hTicket hOther => hOther.eq hTicket hOwner, ?_⟩
  intro hSingle
  have hEarlier : begun < now := Nat.lt_of_le_of_lt hBegun hPut.earlier
  exact (hSingle.current hEarlier hIssued).eq (hSingle.current hGiven hIssues) hOwner

/-- In every run the tickets that one context gives out have different numbers. An
operation that a ticket is given back with, and that answers, takes one mark off the top
of the stack that it is about, and at most one off any other. Each of these marks bears
the number of the ticket, and was put down in the present context for a ticket of that
number. The ticket that is given back was given out to the thread, by the present
context or by an earlier one. A ticket of the present context is given back for its own
mark, and not for another one, unless for a shield that was put down for a scope of an
earlier context; in a thread that has had one context only, this holds of all tickets
and marks.

In a thread that opens one context, numbers are never used twice, and this says that no
ticket ever takes the mark of another one. With several contexts the same number may be
given out again, and then only the number is looked at. -/
theorem rightful_steps (process : Process) (auto : Bool) (limits : Option Limits)
    (body : List (Stmt ν)) :
    (∀ first second ticket other, first < second →
      (Machine.start process auto limits body).SameContext first second →
      (Machine.start process auto limits body).Issues first ticket →
        (Machine.start process auto limits body).Issues second other →
        ticket.id < other.id) ∧
      ∀ now operation before left after ticket kind,
        (steps now (.start process auto limits body)).Performs
          (steps (now + 1) (.start process auto limits body)) operation
          before left → operation.step before = .ok () after →
          (steps now (.start process auto limits body)).Redeems operation ticket kind →
          (∃ given, given < now ∧ (Machine.start process auto limits body).Issues given
            ticket) ∧
            (∃ mark, before.marks kind = mark :: left.marks kind) ∧
            ∀ other, left.marks other = before.marks other ∨
              ∃ mark put owner, before.marks other = mark :: left.marks other ∧
                (Machine.start process auto limits body).Rightful put now ticket owner
                  other mark (left.marks other) := by
  refine ⟨fun first second ticket other hLt hSame hFirst hSecond =>
    hSame.id_lt hLt hFirst hSecond, ?_⟩
  intro now operation before left after ticket kind hPerforms hAnswers hRedeems
  have hLeft (kind : StackKind) : left.marks kind = after.marks kind := by
    rw [hPerforms.left_eq, hAnswers]
    rfl
  obtain ⟨hTaken, hOthers⟩ := hRedeems.seeks.takes hAnswers
  refine ⟨issues_of_mem_tickets process auto limits body hRedeems.mem_tickets,
    hLeft kind ▸ hTaken, fun other => ?_⟩
  rw [hLeft other]
  obtain hSame | ⟨mark, hTop, hId⟩ := hOthers other
  · exact .inl hSame
  · obtain ⟨put, owner, hRightful⟩ :=
      rightful_of_id process auto limits body hPerforms.context hRedeems.mem_tickets
      hTop hId
    exact .inr ⟨mark, put, owner, hTop, hRightful⟩

end Machine

/-! ## Stale tickets -/

/-- A thread closes its context while it holds a ticket of it, opens another context and
enters a region there. Then it gives one of its two tickets back. -/
def reopens (name : String) : List (Stmt Nat) :=
  [.acquire "stale" (.thread none) 1, .acquire "old" (.region ⟨"main", 1, "main"⟩) 1,
    .release "stale" .shutdown, .acquire "fresh" (.thread none) 1,
    .acquire "new" (.region ⟨"main", 2, "main"⟩) 1, .release name .leave]

/-- The visit of the region that is entered in a line of `reopens`. Each context begins
to count at one. -/
def reopens.visit (line : Nat) : Visit :=
  ⟨1, ⟨"main", line, "main"⟩, ⟨0, 0, 0, 0, 0⟩, true⟩

/-- The law speaks of the run of `reopens`: whatever else the thread holds, the ticket
of its present context is given back for its own mark. -/
theorem rightful_of_reopens :
    ∃ before left mark put,
      (Machine.steps 20 (.start {} false none (reopens "new"))).Performs
        (Machine.steps 21 (.start {} false none (reopens "new")))
          (.leave (reopens.visit 2) false) before left ∧
        before.marks .regions = mark :: left.marks .regions ∧
        (Machine.start {} false none (reopens "new")).PutBy put 20
          (.region (reopens.visit 2)) .regions mark (left.marks .regions) := by
  obtain ⟨before, left, after, hPerforms, hAnswers, hBefore, hLeft⟩ :
    ∃ before left after,
      (Machine.steps 20 (.start {} false none (reopens "new"))).Performs
        (Machine.steps 21 (.start {} false none (reopens "new")))
          (.leave (reopens.visit 2) false) before left ∧
        (Operation.leave (reopens.visit 2) false).step before = .ok () after ∧
        before.marks .regions = [.region (reopens.visit 2)] ∧ left.marks .regions =
          [] :=
    ⟨_, _, _, ⟨.release rfl rfl, rfl, rfl, rfl⟩, rfl, rfl, rfl⟩
  have hSame : ∀ count ≤ 20, 16 ≤ count →
      (Machine.steps count (.start {} false none (reopens "new"))).context.isSome := by
    decide +kernel
  have hCurrent :
      (Machine.start {} false none (reopens "new")).Current 20
      (.region (reopens.visit 2)) :=
    ⟨16, by
      decide, fun count hFrom hTo => hSame count hTo hFrom, _, _, _,
        ⟨.openRegion rfl, rfl, rfl, rfl⟩, rfl⟩
  obtain ⟨-, -, hTaken⟩ :=
    (Machine.rightful_steps {} false none (reopens "new")).2 20 _ before left after _ _
      hPerforms hAnswers (.leave hPerforms.calls)
  obtain hStays | ⟨mark, put, owner, hTop, hRightful⟩ := hTaken .regions
  · rw [hBefore, hLeft] at hStays
    cases hStays
  · obtain ⟨id, parked, rfl⟩ | hOwner := hRightful.owner_current
    · rw [hBefore] at hTop
      cases hTop
    · obtain rfl := hRightful.eq hCurrent hOwner
      exact ⟨before, left, mark, put, hPerforms, hTop, hRightful.putBy⟩

/-- The mark of a region was put down for that region. -/
theorem Machine.PutBy.region_eq {start : Machine ν} {put now : Nat} {ticket : Ticket}
    {kind : StackKind} {visit : Visit} {below : List Mark}
    (h : start.PutBy put now ticket kind (.region visit) below) :
    ticket = .region visit := by
  obtain ⟨_, _, _, _, hFor, hPuts, _⟩ := h.puts
  cases hFor with
  | given hTicket =>
      cases hPuts
      exact (Option.some.inj hTicket).symm
  | shields hFocus => cases hPuts

/-- Both contexts of `reopens` give out the number one, and the second one takes the
ticket of the first for its own: a region is left with the ticket of another one,
although both are tickets of one thread.

The handle is kept beyond the life of its context, which nothing prevents. -/
theorem staleTicket_taken :
    ∃ before left after put,
      (Machine.start {} false none (reopens "old")).Issues 5
        (.region (reopens.visit 1)) ∧
        (Machine.start {} false none (reopens "old")).Issues 16
          (.region (reopens.visit 2)) ∧
        (reopens.visit 1).id = (reopens.visit 2).id ∧
          reopens.visit 1 ≠ reopens.visit 2 ∧
        (Machine.steps 20 (.start {} false none (reopens "old"))).Performs
          (Machine.steps 21 (.start {} false none (reopens "old")))
          (.leave (reopens.visit 1) false) before left ∧
        (Operation.leave (reopens.visit 1) false).step before = .ok () after ∧
        before.marks .regions = .region (reopens.visit 2) :: left.marks .regions ∧
        (Machine.start {} false none (reopens "old")).PutBy put 20
          (.region (reopens.visit 2)) .regions (.region (reopens.visit 2))
          (left.marks .regions) := by
  have hOld :
      (Machine.start {} false none (reopens "old")).Issues 5
      (.region (reopens.visit 1)) :=
    ⟨_, _, _, ⟨.openRegion rfl, rfl, rfl, rfl⟩, rfl⟩
  have hNew :
      (Machine.start {} false none (reopens "old")).Issues 16
      (.region (reopens.visit 2)) :=
    ⟨_, _, _, ⟨.openRegion rfl, rfl, rfl, rfl⟩, rfl⟩
  obtain ⟨before, left, after, hPerforms, hAnswers, hBefore, hLeft⟩ :
    ∃ before left after,
      (Machine.steps 20 (.start {} false none (reopens "old"))).Performs
        (Machine.steps 21 (.start {} false none (reopens "old")))
          (.leave (reopens.visit 1) false) before left ∧
        (Operation.leave (reopens.visit 1) false).step before = .ok () after ∧
        before.marks .regions = [.region (reopens.visit 2)] ∧ left.marks .regions =
          [] :=
    ⟨_, _, _, ⟨.release rfl rfl, rfl, rfl, rfl⟩, rfl, rfl, rfl⟩
  have hTop : before.marks .regions = .region (reopens.visit 2) ::
      left.marks .regions := by rw [hBefore, hLeft]
  have hLies : .region (reopens.visit 2) :: left.marks .regions <:+
      before.marks .regions := hTop ▸ List.suffix_rfl
  obtain ⟨put, owner, hPut⟩ :=
    Machine.putBy_steps {} false none (reopens "old") hPerforms.context hLies
  obtain rfl := hPut.region_eq
  exact ⟨before, left, after, put, hOld, hNew, rfl, by
    decide, hPerforms, hAnswers, hTop, hPut⟩

end Unwinding
