import Unwinding.Proofs.Capacity
import Unwinding.Proofs.Footing
import Unwinding.Proofs.Restoration

/-!
# Room

The capacity of a stack is asked for in some places where the stack has just become
smaller. Leaving a region moves the record of the exception in flight down to the depth
that the region found on entry: its own place has been given up before, so there is room
for it. A region that sends on an exception which it has caught forwards it when it is
left, and the records of the region are gone by then; they are at least one, as long as
handles are closed in turn (`Machine.Owns`).

## Main results

* `Context.Sized.leave_room`, `Context.Sized.keepOnly_room` — a record that moves down
  finds its place.
* `Tidy.forwards` — in a run that closes in turn, so does an exception that is sent on.
* `sizes_unobservable` — what the sizes of stacks and pools come to, for threads and
  programs.
-/

namespace Unwinding

open Context

variable {ν : Type}

/-! ## Contexts -/

/-- Leaving a region moves a record down, at most, and does not fail for want of
room. -/
theorem Context.Sized.leave_room {context left : Context} {limits : Limits}
    {visit : Visit} {unwinding : Bool} {error : Error} (h : context.Sized limits)
    (hFails : Context.leave visit unwinding context = .error error left) :
    ¬ NoRoom error :=
  room_of_abreast (abreast_leave h.beside) hFails

/-- To keep the newest record only needs no new node, so it never fails for want of
room. -/
theorem Context.Sized.keepOnly_room {context : Context} {limits : Limits}
    {depth index : Nat} {error : Error} (h : context.Sized limits)
    (hFails : context.records.keepOnly depth index = .error error) :
    ¬ NoRoom error := by
  have hMatched : Matched .exceptions limits.exceptions limits.exceptions False _ _ _ :=
    matched_keepOnly h.records h.records rfl depth index
  rw [hFails] at hMatched
  cases hMatched with
  | fails hasRoom => exact hasRoom
  | refused isPush _ _ => exact isPush.elim

/-- A region that is left normally leaves no records behind, so there are fewer than
before if it had any of its own. -/
theorem Context.Sized.left_room {context left : Context} {limits : Limits}
    {visit : Visit} (h : context.Sized limits)
    (hOwn : visit.entry.exceptions < context.entries.records.length)
    (hLeaves : Context.leave visit false context = .ok () left) :
    left.Sized limits ∧ left.records.depth < limits.exceptions := by
  have hAbreast :
      Abreast limits limits False (Context.leave visit false context)
      (Context.leave visit false context) :=
    abreast_leave h.beside
  rw [hLeaves] at hAbreast
  obtain ⟨-, -, -, -, -, -, -, -, hEntries⟩ := effect_leave.of_ok hLeaves
  have hRecords : left.entries.records.length ≤ visit.entry.exceptions := by
    rw [hEntries, Entries.leave, List.length_map]
    unfold released
    split
    · exact List.length_take_le _ _
    · rw [if_neg (by simp)]
      exact List.length_take_le _ _
  cases hAbreast with
  | answers hBeside =>
      refine ⟨hBeside.left, ?_⟩
      have hWithin := h.records.within
      have hCount : left.entries.records.length = left.records.depth :=
        left.records.length_toList
      have hBefore : context.entries.records.length = context.records.depth :=
        context.records.length_toList
      omega

/-- An exception that is sent on finds a place where there is room for one more
record. -/
theorem Context.Sized.forward_room {context : Context} {limits : Limits}
    (h : context.Sized limits) (hRoom : context.records.depth < limits.exceptions)
    (exception : Exception) :
    ∃ uncaught after, Context.forward exception context = .ok uncaught after := by
  have hPush := h.records.push (.ofException exception)
  change ∃ uncaught after,
    (if context.hasHandler = true then _ else _ : Step (Option Exception)) context =
    .ok uncaught after
  split
  · change ∃ uncaught after,
      EStateM.bind (onRecords fun records => records.readmit exception) _ context =
      .ok uncaught after
    unfold EStateM.bind Records.readmit
    rw [onRecords_eq]
    generalize context.records.push (.ofException exception) = pushed at hPush
    cases hPush with
    | taken isSized live => exact ⟨_, _, rfl⟩
    | refused isFull => exact absurd isFull (Nat.ne_of_lt hRoom)
  · exact ⟨_, _, rfl⟩

/-! ## Which step has which exception in hand -/

namespace Machine

variable {m : Machine ν}

private theorem answering_ne {α : Type} {step : Step α} {deed : α → Deed} {other : Deed}
    (hRests : other ≠ .rests) (hDeed : ∀ answer, deed answer ≠ other) :
    m.answering step deed ≠ other := by
  unfold answering
  split
  · exact hRests.symm
  · split
    · exact hDeed _
    · exact hRests.symm

private theorem closing_ne {other : Deed} (hRests : other ≠ .rests)
    (hCloses : other ≠ .closes) : m.closing ≠ other := by
  unfold closing
  split
  · exact hRests.symm
  · exact hCloses.symm

/-- Only a statement recalls an exception. -/
theorem focus_of_recalls {name : String} (h : m.deed = .recalls name) :
    m.focus = .exec (.rethrow name) := by
  have hRests : Deed.recalls name ≠ .rests := by simp
  have answering {α : Type} {step : Step α} {deed : α → Deed}
    (hDeed : ∀ answer, deed answer ≠ .recalls name)
    (h : m.answering step deed = .recalls name) : False := answering_ne hRests hDeed h
  have closing (h : m.closing = .recalls name) : False := closing_ne hRests (by simp) h
  have statement {stmt : Stmt ν} (h : m.deedOf stmt = .recalls name) :
      stmt = .rethrow name := by
    unfold deedOf at h
    split at h
    · split at h <;> cases h
    · exact (answering (by simp) h).elim
    · exact (answering (by simp) h).elim
    · exact (answering (by simp) h).elim
    · split at h
      · split at h
        · exact (answering (by simp) h).elim
        · cases h
      · cases h
    · split at h
      · cases h
      · exact (closing h).elim
      · cases h
    · split at h <;> cases h
    · cases h
      rfl
    · cases h
  unfold deed at h
  split at h
  · next stmt hFocus => rw [hFocus, statement h]
  · exact (closing h).elim
  · split at h <;> cases h
  · cases h
  · split at h
    · cases h
    · split at h <;> cases h
  · split at h
    · refine (answering (fun answer => ?_) h).elim
      cases answer <;> simp
    · cases h
    · exact (closing h).elim
    · cases h
  · split at h
    · split at h
      · exact (answering (by simp) h).elim
      · cases h
    · cases h
    · split at h <;> cases h
    · exact (closing h).elim
    · cases h
  · split at h <;> cases h
  · cases h
  · cases h
  · split at h <;> cases h
  · cases h

end Machine

/-! ## Exceptions that are sent on -/

section

variable {m : Machine ν} {ledger : List Extent}

/-- A region that has caught an exception has records of its own for as long as it tries
its clauses. -/
def Machine.Owns (m : Machine ν) : Prop :=
  ∀ region exception context, m.focus = .offer region exception ∨
    m.focus = .leave region (.error exception) →
    m.context = some context →
      region.visit.entry.exceptions < context.entries.records.length

private theorem Machine.focus_of_declines {exception : Exception}
    (h : m.deed = .declines exception) :
    ∃ region, m.focus = .offer region exception ∧
      m.step = m.goto (.leave region (.error exception)) := by
  have hSpends : m.deed.spends? = some exception := by
    rw [h]
    rfl
  have hCarried := carried_of_spends hSpends
  cases hFocus : m.focus with
  | offer region caught =>
      rw [hFocus] at hCarried
      obtain rfl : caught = exception := Option.some.inj hCarried
      refine ⟨region, rfl, ?_⟩
      simp only [deed, hFocus] at h
      split at h
      · next hFind => simp only [step, hFocus, offer, hFind]
      · cases h
  | leave region outcome =>
      simp only [deed, hFocus] at h
      cases h
  | forward caught =>
      simp only [deed, hFocus] at h
      cases h
  | _ =>
      rw [hFocus] at hCarried
      cases hCarried

/-- What is sent on by a region that is left is forwarded next. -/
theorem Machine.focus_of_leaves {visit : Visit} {unwinding : Bool}
    {exception : Exception} (h : m.deed = .leaves visit unwinding (.sentOn exception))
    (hGoesOn : m.step.poisoned = false) :
    m.step.focus = .forward exception := by
  have hSpends : m.deed.spends? = some exception := by
    rw [h]
    rfl
  have hCarried := carried_of_spends hSpends
  cases hFocus : m.focus with
  | offer region caught =>
      simp only [deed, hFocus] at h
      split at h <;> cases h
  | leave region outcome =>
      simp only [deed, hFocus, fate] at h
      simp only [step, hFocus, leave] at hGoesOn ⊢
      obtain ⟨context, _, left, -, -, hNext⟩ := perform_goesOn hGoesOn
      rw [hNext]
      cases outcome with
      | ok value => cases h
      | error caught =>
          cases hMode : region.mode with
          | run =>
              rw [hMode] at h
              cases h
              rfl
          | attempt name =>
              rw [hMode] at h
              cases h
  | forward caught =>
      simp only [deed, hFocus] at h
      cases h
  | _ =>
      rw [hFocus] at hCarried
      cases hCarried

private theorem Footing.owns (h : Footing m ledger) (hOwns : m.Owns)
    (hTurn : m.InTurn ledger) (hGoesOn : m.step.poisoned = false) :
    m.step.Owns := by
  intro region exception after hFocus hAfter
  have hDid := Machine.did_step h.stands.clear hGoesOn
  have hFits := h.stands.fits hTurn
  have hHand : m.deed.hand m.bindings = some exception := by
    rw [← hDid.hand]
    obtain hOffer | hLeave := hFocus
    · rw [hOffer]; rfl
    · rw [hLeave]; rfl
  obtain ⟨phase, rest, hLedger⟩ : ∃ phase rest,
      m.deed.move.apply ledger = .protecting region.visit phase :: rest := by
    have hPoised := hDid.poised ledger hTurn h.stands.poised h.stands.seated
    obtain hOffer | hLeave := hFocus
    · rw [hOffer] at hPoised
      obtain ⟨rest, hLedger⟩ := hPoised
      exact ⟨_, rest, hLedger⟩
    · rw [hLeave] at hPoised
      exact hPoised
  have hNotForward (sent : Exception) : m.step.focus ≠ .forward sent := by
    obtain hOffer | hLeave := hFocus
    · rw [hOffer]; simp
    · rw [hLeave]; simp
  have hActs := hDid.acts
  rw [Machine.entries?_some hAfter] at hActs
  generalize hBefore : m.entries? = before at hActs
  generalize hEntries : after.entries = entries at hActs
  cases hDeed : m.deed with
  | declines declined =>
      obtain ⟨owner, hOffer, hStep⟩ := Machine.focus_of_declines hDeed
      rw [hStep] at hFocus hAfter
      obtain hOffer' | hLeave := hFocus
      · cases hOffer'
      · cases hLeave
        exact hEntries ▸ hOwns _ _ _ (.inl hOffer) hAfter
  | recalls name =>
      rw [hDeed] at hHand
      refine absurd ?_ (hNotForward exception)
      simp only [Machine.step, Machine.focus_of_recalls hDeed, Machine.exec,
        Machine.exception?]
      rw [show m.bindings.lookup name = some exception from hHand]
      rfl
  | leaves visit unwinding fate =>
      rw [hDeed] at hHand
      cases fate with
      | sentOn sent =>
          exact absurd (Machine.focus_of_leaves hDeed hGoesOn) (hNotForward sent)
      | nothing => cases hHand
      | kept caught name => cases hHand
  | catches visit caught =>
      rw [hDeed] at hActs hFits hLedger
      obtain ⟨below, rfl⟩ := List.head?_eq_some_iff.1 hFits
      cases hLedger
      cases hActs with
      | turns hTurns =>
          obtain ⟨context, hContext, rfl⟩ := Machine.exists_of_entries? hBefore
          cases hTurns with
          | quiet isQuiet => exact isQuiet.elim
          | catches innermost inFlight found =>
              have hCatches := h.catches hGoesOn hContext hDeed inFlight
              exact Nat.lt_of_le_of_lt hCatches (List.getElem?_eq_some_iff.1 found).1
  | reports visit reported =>
      rw [hDeed] at hActs hFits hLedger
      obtain ⟨below, rfl⟩ := List.head?_eq_some_iff.1 hFits
      cases hLedger
      cases hActs with
      | turns hTurns =>
          obtain ⟨context, hContext, rfl⟩ := Machine.exists_of_entries? hBefore
          cases hTurns with
          | quiet isQuiet => exact isQuiet.elim
          | reports innermost =>
              have hEntry :=
                (h.stands.nested context hContext).entry_le region.visit
                List.mem_cons_self
              simp only [Entries.raise, List.length_append]
              exact Nat.lt_succ_of_le hEntry
  | _ =>
      rw [hDeed] at hHand
      cases hHand

/-- The states of a run that closes in turn. -/
structure Tidy (m : Machine ν) (ledger : List Extent) : Prop where
  footing : Footing m ledger
  owns : m.Owns
  self : m.Beside Eq m

private theorem tidy_of_reaches {process : Process} {auto : Bool}
    {limits : Option Limits} {body : List (Stmt ν)}
    (h : Reaches Machine.InTurn (.start process auto limits body)
      (Machine.start process auto limits body).opened m ledger) :
    Tidy m ledger := by
  induction h with
  | start =>
      refine ⟨footing_start process auto limits body,
        fun region exception context hFocus _ => ?_,
        Machine.beside_self process auto limits body 0⟩
      have hCarried := (Machine.start_fresh process auto limits body).2.1
      obtain hOffer | hLeave := hFocus
      · rw [hOffer] at hCarried
        cases hCarried
      · rw [hLeave] at hCarried
        cases hCarried
  | step before isAllowed goesOn ih =>
      exact ⟨ih.footing.step isAllowed goesOn, ih.footing.owns ih.owns isAllowed goesOn,
        ih.self.equal_step⟩

/-- A step that goes on, or that ends the thread because nothing catches an exception,
was not refused a place. -/
theorem Machine.not_refuses {kind : StackKind}
    (h : m.step.poisoned = false ∨ m.step.failure? = none) : ¬ m.Refuses kind := by
  rintro ⟨limits, control, context, -, -, hRefused⟩
  obtain hClear | hNone := h
  · rw [hRefused] at hClear
    cases hClear.symm.trans (poisoned_terminate _ _)
  · rw [hRefused, failure?_fatal] at hNone
    cases hNone

/-- An exception that a region has caught, and that none of its clauses fits, finds a
place for its record when it is sent on. The records of the region are gone by then, and
they were at least one, so the place of that one is free. -/
theorem Tidy.forwards {region : Protected ν} {exception : Exception} (h : Tidy m ledger)
    (hFocus : m.focus = .leave region (.error exception)) (hMode : region.mode = .run)
    (hGoesOn : m.step.poisoned = false) :
    m.step.focus = .forward exception ∧ ∀ kind, ¬ m.step.Refuses kind := by
  have hStep : m.step = m.leave region (.error exception) := by
    simp only [Machine.step, hFocus]
  have hClear := hGoesOn
  rw [hStep] at hGoesOn
  unfold Machine.leave at hGoesOn
  have hUse : m.inUse = false := by
    cases hInUse : m.inUse with
    | false => rfl
    | true =>
        rw [Machine.perform_reentered _ hInUse] at hGoesOn
        cases hGoesOn.symm.trans (Machine.poisoned_terminate _ _)
  obtain ⟨context, _, left, hContext, hLeaves, hNext⟩ := Machine.perform_goesOn hGoesOn
  rw [hMode] at hNext
  have hForward : m.step = (m.store left).goto (.forward exception) := by
    rw [hStep]
    unfold Machine.leave
    rw [hMode]
    exact hNext
  obtain ⟨limits, hSized⟩ := h.self.sized hContext
  obtain ⟨hLeft, hRoom⟩ :=
    hSized.left_room (h.owns region exception context (.inr hFocus) hContext) hLeaves
  have hCleared : ({ left with journal := [] } : Context).Sized limits := { hLeft with }
  obtain ⟨uncaught, after, hSent⟩ := hCleared.forward_room hRoom exception
  have hUse' : m.step.inUse = false := by
    rw [hForward]
    exact hUse
  have hContext' : m.step.context = some { left with journal := [] } := by
    rw [hForward]
    rfl
  have hStepped : m.step.step = m.step.forward exception := by
    rw [hForward]
    rfl
  refine ⟨by rw [hForward]; rfl, fun kind => Machine.not_refuses ?_⟩
  rw [hStepped]
  unfold Machine.forward
  rw [Machine.perform_settled _ hUse' hContext', hSent]
  cases uncaught with
  | none => exact .inl hClear
  | some exception => exact .inr (Machine.failure?_uncaught _ _)

/-- An exception that is sent on is refused a place where the records are as many as
they can be. -/
theorem Machine.refuses_forward {exception : Exception} {context : Context}
    (h : m.Beside Eq m) (hFocus : m.focus = .forward exception) (hUse : m.inUse = false)
    (hContext : m.context = some context) (hHandler : context.hasHandler = true)
    (hFull : context.records.depth = context.records.limit) :
    m.Refuses .exceptions := by
  obtain ⟨limits, hSized⟩ := h.sized hContext
  have hLimit := hFull.trans hSized.records.limit
  have hPush := hSized.records.push (.ofException exception)
  have hSent : Context.forward exception context =
      .error (.capacityExceeded "exceptions" limits.exceptions) context := by
    change (if context.hasHandler = true then _ else _ : Step (Option Exception))
      context = _
    rw [if_pos hHandler]
    change EStateM.bind (onRecords fun records => records.readmit exception) _ context =
      _
    unfold EStateM.bind Records.readmit
    rw [onRecords_eq]
    generalize context.records.push (.ofException exception) = pushed at hPush
    cases hPush with
    | taken isSized live =>
        have hWithin := isSized.within
        have hDepth := Stack.depth_of_cons live
        omega
    | refused isFull => rfl
  have hStep : m.step = m.forward exception := by simp only [step, hFocus]
  refine ⟨limits, m.control, context, hSized, hLimit, ?_⟩
  rw [hStep]
  unfold Machine.forward
  rw [Machine.perform_settled _ hUse hContext, hSent, ← hUse]
  rfl

/-! ## What sizes come to -/

/-- Sizes that are not reached cannot be observed. Programs that differ only in the
capacities of their stacks, and in the number of nodes that these keep from the start,
do the same if all their threads find places; with smaller stacks a thread goes as with
larger ones, up to the step in which it is refused a place, and is terminated for that
stack. What the kept nodes hold makes no difference to what a thread does later. Leaving
a region moves its record down without asking for room, and in a run that closes in turn
an exception that leaves the region it was caught in is sent on without being refused
any.

The first two parts compare whole programs, whatever they do; only the last part, about
an exception that is sent on, asks for a run in turn. -/
theorem sizes_unobservable :
    (∀ p q : Program ν, p.Resized Limits.Any q → p.Fits → q.Fits → p.run = q.run) ∧
    (∀ p q : Program ν, p.Resized Limits.Within q → p.Keeps q) ∧
    (∀ (process : Process) (auto : Bool) (limits : Option Limits) (body : List (Stmt ν))
      (reached : Nat) (nodes : KeptNodes)
      (count : Nat),
      let m := Machine.steps reached (.start process auto limits body)
      (Machine.steps count m).Beside Eq (Machine.steps count (m.restock nodes)) ∧
        (Machine.steps count m).report =
          (Machine.steps count (m.restock nodes)).report) ∧
    (∀ (process : Process) (auto : Bool) (limits : Option Limits) (body : List (Stmt ν))
      (reached : Nat) (context : Context),
      (Machine.steps reached (.start process auto limits body)).context = some context →
      (∀ depth index error, context.records.keepOnly depth index = .error error →
      ¬ NoRoom error) ∧ ∀ visit unwinding error left,
      Context.leave visit unwinding context = .error error left → ¬ NoRoom error) ∧
    ∀ (process : Process) (auto : Bool) (limits : Option Limits) (body : List (Stmt ν))
      (m : Machine ν) (ledger : List Extent)
      (region : Protected ν) (exception : Exception),
      Reaches Machine.InTurn (.start process auto limits body)
        (Machine.start process auto limits body).opened m ledger →
        m.focus = .leave region (.error exception) → region.mode = .run →
          m.step.poisoned = false →
          m.step.focus = .forward exception ∧ ∀ kind, ¬ m.step.Refuses kind := by
  refine ⟨fun p q hResized => hResized.run, fun p q hResized => hResized.keeps, ?_, ?_,
    ?_⟩
  · intro process auto limits body reached nodes count m
    have hBeside :=
      ((Machine.beside_self process auto limits body reached).restock nodes).equal_steps
      count
    exact ⟨hBeside, hBeside.report⟩
  · intro process auto limits body reached context hContext
    obtain ⟨capacities, hSized⟩ :=
      (Machine.beside_self process auto limits body reached).sized hContext
    exact ⟨fun depth index error => hSized.keepOnly_room,
      fun visit unwinding error left => hSized.leave_room⟩
  · intro process auto limits body m ledger region exception hReaches hFocus hMode
      hGoesOn
    exact (tidy_of_reaches hReaches).forwards hFocus hMode hGoesOn

end

/-- Whether the last step terminated the thread because a stack was full. -/
def Machine.lacksRoom (m : Machine ν) : Bool :=
  match m.failure? with
  | some (.capacityExceeded _ _) => true
  | _ => false

private theorem Machine.Refuses.lacksRoom {m : Machine ν} {kind : StackKind}
    (h : m.Refuses kind) : m.step.lacksRoom = true := by
  obtain ⟨limits, control, context, -, -, hRefused⟩ := h
  unfold Machine.lacksRoom
  rw [hRefused, failure?_fatal]

/-- A run that is over has found a place for everything, if it has done so in each of
its steps. -/
theorem Machine.finds_of_run {m : Machine ν}
    (h : ∀ i ≤ m.weight, (steps i m).step.lacksRoom = false) (count : Nat)
    (kind : StackKind) : ¬ (steps count m).Refuses kind := by
  intro hRefuses
  by_cases hShort : count ≤ m.weight
  · cases (h count hShort).symm.trans hRefuses.lacksRoom
  · rw [steps_of_le (run_isStopped m) (by omega)] at hRefuses
    cases (h _ (Nat.le_refl _)).symm.trans hRefuses.lacksRoom

/-- A program of one thread, with so many nodes kept from the start and stacks of these
capacities. -/
def sizedProgram (preallocate : Nat) (limits : Limits) (body : List (Stmt Nat)) :
    Program Nat :=
  { threads := [body], config := some { limits, preallocate, terminator := .unwind } }

/-- The process that this program starts in. -/
def sizedProcess (preallocate : Nat) (limits : Limits) : Process :=
  { config := some { limits, preallocate, terminator := .unwind } }

/-- A region sends on what it does not catch, and the region around it catches it. -/
def sendsOn : List (Stmt Nat) :=
  [.protect 1 ⟨"main", 1, "main"⟩ .run catchAll
    [.protect 1 ⟨"main", 2, "main"⟩ .run []
      [.raise (.direct .illegalEscape) ⟨"main", 3, "main"⟩ [.text "lost"]]]]

private theorem sizedProgram_fits {preallocate : Nat} {limits : Limits}
    {body : List (Stmt Nat)}
    (h : ∀ i ≤ (Machine.start (sizedProcess preallocate limits) true none body).weight,
      (Machine.steps i
        (.start (sizedProcess preallocate limits) true none body)).step.lacksRoom =
        false) :
    (sizedProgram preallocate limits body).Fits :=
  ⟨Machine.finds_of_run h, .inr trivial⟩

private theorem sizedProgram_resized {R : Limits → Limits → Prop} {few many : Limits}
    {preallocate other : Nat} {body : List (Stmt Nat)} (hLimits : R few many)
    (hMemory : ({ preallocate } : Config).fitsMemory =
      ({ preallocate := other } : Config).fitsMemory) :
    (sizedProgram preallocate few body).Resized R (sizedProgram other many body) where
  threads := rfl
  auto := rfl
  registry := rfl
  configs := .some ⟨hLimits, rfl, rfl, rfl, hMemory⟩
  limits := fun _ _ hAllowed => hAllowed

/-- A machine that sends an exception on for good when it leaves the region. -/
def Machine.sendsOn? (m : Machine ν) : Bool :=
  match m.focus with
  | .leave region (.error _) => decide (region.mode = .run) && !m.step.poisoned
  | _ => false

private theorem Machine.of_sendsOn? {m : Machine ν} (h : m.sendsOn? = true) :
    ∃ region exception, m.focus = .leave region (.error exception) ∧
      region.mode = .run ∧ m.step.poisoned = false := by
  unfold Machine.sendsOn? at h
  split at h
  · next region exception hFocus =>
      simp only [Bool.and_eq_true, decide_eq_true_eq, Bool.not_eq_true'] at h
      exact ⟨region, exception, hFocus, h.1, h.2⟩
  · cases h

/-- `sendsOn` with two entries on each stack, and with many. -/
theorem sizes_unobservable_sendsOn :
    (sizedProgram 4 (.uniform 2) sendsOn).run =
    (sizedProgram 16 (.uniform 64) sendsOn).run ∧
    (sizedProgram 4 (.uniform 1) sendsOn).Keeps
    (sizedProgram 16 (.uniform 64) sendsOn) ∧
    (∃ context,
      (Machine.steps 10
      (.start (sizedProcess 4 (.uniform 2)) true none sendsOn)).context = some context ∧
      ∀ visit unwinding error left, Context.leave visit unwinding context =
        .error error left → ¬ NoRoom error) ∧
    ∃ (m : Machine Nat) (region : Protected Nat) (exception : Exception),
      m.focus = .leave region (.error exception) ∧
      m.step.focus = .forward exception ∧ ∀ kind, ¬ m.step.Refuses kind := by
  obtain ⟨hSame, hKeeps, -, hMoves, hSends⟩ := @sizes_unobservable Nat
  have hFits : (sizedProgram 4 (.uniform 2) sendsOn).Fits :=
    sizedProgram_fits (by decide +kernel)
  have hFits' : (sizedProgram 16 (.uniform 64) sendsOn).Fits :=
    sizedProgram_fits (by decide +kernel)
  refine ⟨hSame _ _ (sizedProgram_resized trivial (by decide)) hFits hFits',
    hKeeps _ _ (sizedProgram_resized (fun kind => ?_) (by decide)), ?_, ?_⟩
  · cases kind <;> decide
  · have hContext :
        (Machine.steps 10
        (.start (sizedProcess 4 (.uniform 2)) true none sendsOn)).context.isSome =
        true := by
      decide +kernel
    obtain ⟨context, hContext⟩ := Option.isSome_iff_exists.1 hContext
    exact ⟨context, hContext, (hMoves _ _ _ _ _ context hContext).2⟩
  · obtain ⟨m, ledger, hReaches, hTest⟩ :=
      Reaches.of_follow 11 (fun (m : Machine Nat) _ => m.sendsOn?)
      (show (follow Machine.InTurn 11
        (.start (sizedProcess 4 (.uniform 2)) true none sendsOn)
        (Machine.start (sizedProcess 4 (.uniform 2)) true none sendsOn).opened).any _ =
        true by decide +kernel)
    obtain ⟨region, exception, hFocus, hMode, hGoesOn⟩ := Machine.of_sendsOn? hTest
    exact ⟨m, region, exception, hFocus,
      hSends _ _ _ _ m ledger region exception hReaches hFocus hMode hGoesOn⟩

/-- The outer one of two explicit regions is closed before the inner one, and a raise is
stopped in between: its record is still there when another region is entered, and gone
when that region, which closes the inner one, sends an exception on. -/
def sendsOnLate : List (Stmt Nat) :=
  [.protect 1 ⟨"main", 1, "main"⟩ .run catchAll
    [.acquire "outer" (.region ⟨"main", 2, "main"⟩) 1,
      .acquire "inner" (.region ⟨"main", 3, "main"⟩) 1, .release "outer" .drop,
      .attempt [.raise (.direct .illegalEscape) ⟨"main", 4, "main"⟩ [.text "first"]]
      none,
      .protect 1 ⟨"main", 5, "main"⟩ .run []
        [.release "inner" .drop, .raise (.direct .illegalEscape) ⟨"main", 6, "main"⟩
          [.text "second"]]]]

/-- Pools that are too large to be laid out show, though no stack is ever full. And
where handles are not closed in turn, an exception that is sent on by the region that it
was raised in is refused the place for its record.

Pools are laid out in one piece each, and there is a largest piece of memory that can be
asked for. -/
theorem sizes_show_fails :
    ((sizedProgram 1000000000000000000 {} sendsOn).Fits ∧
      (sizedProgram 16 {} sendsOn).Fits ∧
      (sizedProgram 1000000000000000000 {} sendsOn).run ≠
        (sizedProgram 16 {} sendsOn).run) ∧
    let m :=
      Machine.steps 38
      (.start (sizedProcess 16 { exceptions := 1 }) true none sendsOnLate)
    ∃ region exception, m.focus = .leave region (.error exception) ∧
      region.mode = .run ∧ m.step.focus = .forward exception ∧
      m.step.Refuses .exceptions := by
  refine ⟨⟨sizedProgram_fits (by decide +kernel), sizedProgram_fits (by decide +kernel),
    fun hSame => ?_⟩, ?_⟩
  · have hEvents :=
      congrArg (fun outcome => outcome.threads.map fun report => report.events.length)
      hSame
    revert hEvents
    decide +kernel
  · intro m
    have hTest : m.sendsOn? = true := by decide +kernel
    obtain ⟨region, exception, hFocus, hMode, hGoesOn⟩ := Machine.of_sendsOn? hTest
    have hDeed : m.deed = .leaves region.visit false (.sentOn exception) := by
      simp only [Machine.deed, hFocus, Machine.fate, hMode]
    have hForward := Machine.focus_of_leaves hDeed hGoesOn
    have hUse : m.step.inUse = false := by decide +kernel
    have hFull : (m.step.context.any fun context =>
        context.hasHandler && decide (context.records.depth = context.records.limit)) =
          true := by decide +kernel
    obtain ⟨context, hContext, hFull⟩ := (Option.any_eq_true _ _).1 hFull
    simp only [Bool.and_eq_true, decide_eq_true_eq] at hFull
    have hSelf : m.step.Beside Eq m.step :=
      (Machine.beside_self (sizedProcess 16 { exceptions := 1 }) true none sendsOnLate
        38).equal_step
    exact ⟨region, exception, hFocus, hMode, hForward,
      Machine.refuses_forward hSelf hForward hUse hContext hFull.1 hFull.2⟩

end Unwinding
