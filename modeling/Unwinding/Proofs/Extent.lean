import Unwinding.Machine.Run

/-!
# What a thread has open

A thread opens its context, explicit regions, traced calls, guard scopes, guard bodies
and protected regions, and closes them again. Each is an `Extent`, and the ledger of a
run is the list of those that are open, the last one first. The ledger is not part of
the runtime: `Machine.move` reads off the machine what its next step does to it. A scope
counts as open from its first registration, because only then does the runtime know of
it.

The laws of the library are about runs that close in turn: what a step closes is the
extent that was opened last (`Machine.InTurn`). `Reaches` is such a run, up to the first
termination.
-/

namespace Unwinding

/-- How far a protected region is: its body runs, its clauses are tried on an exception,
or one of its handlers runs.

The exception that the region has caught is part of the later phases, so a ledger tells
which exception each handler was given. -/
inductive Phase where
  | body
  | clauses (caught : Exception)
  | handler (caught : Exception)
  deriving DecidableEq

namespace Phase

/-- The state that the runtime keeps for a region in a phase. -/
def state : Phase → RegionState
  | .body => .dispatching
  | .clauses _ => .matching
  | .handler _ => .handling

/-- The exception that the region has caught. -/
def caught? : Phase → Option Exception
  | .body => none
  | .clauses caught => some caught
  | .handler caught => some caught

end Phase

/-- Something that a thread has opened and not closed yet.

An extent carries what its handle or its region remembers of the entry, so the ledger is
enough to say what each of the things that are open will look for when it is closed. -/
inductive Extent where
  | thread
  /-- A traced call, with the depths that its handle remembers. -/
  | call (entry : Depths)
  /-- An explicit region. -/
  | region (visit : Visit)
  /-- A guard scope in which something is registered. -/
  | scope (mark : Nat)
  /-- A guard body that runs. -/
  | guardBody (mark : Nat)
  | protecting (visit : Visit) (phase : Phase)
  deriving DecidableEq

/-- What a step does to the ledger.

Moves are read off the machine and the answer of the step it makes on the context. The
ledger is followed along a run from the outside; no definition of the machine looks at
it. -/
inductive Move where
  | stay
  | opens (extent : Extent)
  | closes
  /-- The innermost protected region goes on to another phase. -/
  | turns (phase : Phase)

/-- The ledger after a move. -/
def Move.apply : Move → List Extent → List Extent
  | .stay, ledger => ledger
  | .opens extent, ledger => extent :: ledger
  | .closes, ledger => ledger.tail
  | .turns phase, .protecting visit _ :: ledger => .protecting visit phase :: ledger
  | .turns _, ledger => ledger

/-- A move looks at the innermost extent only. -/
theorem Move.apply_append (move : Move) {above : List Extent} (below : List Extent)
    (h : above ≠ []) :
    move.apply (above ++ below) = move.apply above ++ below := by
  obtain ⟨top, rest, rfl⟩ := List.exists_cons_of_ne_nil h
  cases move with
  | stay => rfl
  | opens extent => rfl
  | closes => rfl
  | turns phase => cases top <;> rfl

namespace Handle

variable {ν : Type}

/-- What a handle keeps open. A scope in which nothing is registered keeps nothing
open. -/
def extent? : Handle ν → Option Extent
  | .thread => some .thread
  | .region visit _ => some (.region visit)
  | .call entry _ => some (.call entry)
  | .guards scope => scope.mark.map .scope

/-- Whether a handle was opened while the thread was unwinding. -/
def inUnwinding : Handle ν → Bool
  | .thread => false
  | .region _ inUnwinding => inUnwinding
  | .call _ inUnwinding => inUnwinding
  | .guards scope => scope.inUnwinding

end Handle

namespace Machine

variable {ν : Type}

/-! ## Reading the next move -/

/-- The move that an answer of a step on the context makes; none if there is no
answer. -/
def after {α : Type} (m : Machine ν) (step : Step α) (move : α → Move) : Move :=
  match m.context with
  | none => .stay
  | some context =>
      match step context with
      | .ok answer _ => move answer
      | .error _ _ => .stay

/-- A context that is in use is not closed. -/
def closesThread (m : Machine ν) : Move :=
  if m.inUse then .stay else .closes

/-- What the next step does to the ledger. -/
def move (m : Machine ν) : Move :=
  match m.focus with
  | .exec (.acquire _ (.thread limits) (_ + 1)) =>
      match (m.openThread limits).1 with
      | .opened => .opens .thread
      | _ => .stay
  | .exec (.acquire _ (.region site) (_ + 1)) =>
      m.after (Context.enter site true) fun visit => .opens (.region visit)
  | .exec (.acquire _ (.call site) (_ + 1)) =>
      m.after (Context.enterCall site) fun entry => .opens (.call entry)
  | .exec (.protect _ site _ _ _) =>
      m.after (Context.enter site false) fun visit => .opens (.protecting visit .body)
  | .exec (.guard name _ _) =>
      match Handle.find? name m.control with
      | some (.guards scope) =>
          if scope.mark.isNone then m.after (Context.openScope scope.site)
            fun mark => .opens (.scope mark) else .stay
      | _ => .stay
  | .exec (.release name how) =>
      match Handle.take? name m.control, how with
      | some (.region _ _, _), .leave => .closes
      | some (.thread, _), .shutdown => m.closesThread
      | _, _ => .stay
  | .drop .thread => m.closesThread
  | .drop (.region _ _) => .closes
  | .drop (.call _ _) => .closes
  | .leaveScope scope =>
      match scope.bodies with
      | [] => .closes
      | (flavor, _) :: _ =>
          if flavor.applies scope.unwinding then .opens (.guardBody scope.mark) else
            .stay
  | .deliver _ =>
      match m.control with
      | .body region :: _ =>
          m.after (Context.claimEscape m.registry.slots region.visit) fun escape =>
            match escape with
            | none => .stay
            | some exception => .turns (.clauses exception)
      | .guarding _ :: _ => .closes
      | .thread true :: _ => m.closesThread
      | _ => .stay
  | .unwind payload =>
      match m.control with
      | .body region :: _ =>
          match payload with
          | .raise =>
              m.after (Context.catchInFlight region.visit) fun exception =>
                .turns (.clauses exception)
          | _ => .closes
      | .handler _ :: _ => .closes
      | .thread true :: _ => m.closesThread
      | _ => .stay
  | .offer region exception =>
      match region.clauses.zipIdx.find? fun (clause, _) =>
        m.registry.fits exception.kind clause.kind with
      | none => .stay
      | some _ => .turns (.handler exception)
  | .leave _ _ => .closes
  | _ => .stay

/-! ## Runs that close in turn -/

/-- The extent that the next step gives up, if it gives one up: a handle is dropped,
left or shut down, or the code of a region, a guard body or the thread has ended. -/
def closing? (m : Machine ν) : Option Extent :=
  match m.focus with
  | .drop handle => handle.extent?
  | .exec (.release name how) =>
      match Handle.take? name m.control, how with
      | some (.region visit _, _), .leave => some (.region visit)
      | some (.thread, _), .shutdown => some .thread
      | _, _ => none
  | .deliver _ =>
      match m.control with
      | .body region :: _ => some (.protecting region.visit .body)
      | .guarding scope :: _ => some (.guardBody scope.mark)
      | .thread true :: _ => some .thread
      | _ => none
  | .unwind _ =>
      match m.control with
      | .body region :: _ => some (.protecting region.visit .body)
      | .thread true :: _ => some .thread
      | _ => none
  | _ => none

/-- The region whose handler ends with the next step. -/
def endsHandler? (m : Machine ν) : Option Visit :=
  match m.focus, m.control with
  | .deliver _, .handler region :: _ => some region.visit
  | .unwind _, .handler region :: _ => some region.visit
  | _, _ => none

/-- What the next step gives up is the extent that was opened last.

Handles that go with their blocks do so in reverse order of their creation, so a program
breaks this only if it gives a handle up by name, or keeps one for longer than its
block. The second field says as much for handlers, whose regions a program cannot
touch. -/
structure InTurn (m : Machine ν) (ledger : List Extent) : Prop where
  closing : ∀ extent, m.closing? = some extent → ledger.head? = some extent
  handler : ∀ visit, m.endsHandler? = some visit →
    ∃ caught, ledger.head? = some (.protecting visit (.handler caught))

/-- A raise is about to be stopped by code that knows nothing of it.

Such code has no means to tell the runtime that nothing is on its way any more, so the
record stays on the stack, and in flight, until the next region is left. -/
def StopsRaise (m : Machine ν) : Prop :=
  m.focus = .unwind .raise ∧ ∃ resume below, m.control = .attempt resume :: below

/-- A raise is about to drop a handle that was opened while the thread was already
unwinding.

What was opened while the thread was already unwinding cannot tell from the thread’s
state by what it is dropped: the thread is unwinding either way. It takes the drop for a
return. -/
def LeavesStale (m : Machine ν) : Prop :=
  ∃ handle below, m.focus = .drop handle ∧ handle.inUnwinding = true ∧
    m.control = .unwinding .raise :: below

end Machine

/-- A run from a machine and a ledger to another, through steps that are all allowed and
none of which terminates the thread.

Laws differ in what they ask of the steps, so that is a parameter. Each law names the
weakest condition it needs: that handles are closed in turn, that nothing foreign stops
a raise, or that besides no handle is mistaken about its exit. -/
inductive Reaches {ν : Type} (allowed : Machine ν → List Extent → Prop)
    (start : Machine ν) (opened : List Extent) :
    Machine ν → List Extent → Prop where
  | start : Reaches allowed start opened start opened
  | step {m : Machine ν} {ledger : List Extent}
      (before : Reaches allowed start opened m ledger)
      (isAllowed : allowed m ledger) (goesOn : m.step.poisoned = false) :
      Reaches allowed start opened m.step (m.move.apply ledger)

/-- A run, and what is noted of its steps, in their order. -/
inductive Notes {ν β : Type} (allowed : Machine ν → List Extent → Prop)
    (observe : Machine ν → List Extent → Option β)
    (start : Machine ν) (opened : List Extent) : List β → Machine ν → List Extent → Prop
  | start : Notes allowed observe start opened [] start opened
  | step {noted : List β} {m : Machine ν} {ledger : List Extent}
      (before : Notes allowed observe start opened noted m ledger)
      (isAllowed : allowed m ledger) (goesOn : m.step.poisoned = false) :
      Notes allowed observe start opened (noted ++ (observe m ledger).toList)
        m.step (m.move.apply ledger)

section

variable {ν : Type} {allowed : Machine ν → List Extent → Prop} {start m : Machine ν}
    {opened ledger : List Extent}

/-- Every run can be watched: whatever is observed of its machines and ledgers has been
noted in some list by the end. -/
theorem Reaches.notes {β : Type} (observe : Machine ν → List Extent → Option β)
    (h : Reaches allowed start opened m ledger) :
    ∃ noted, Notes allowed observe start opened noted m ledger := by
  induction h with
  | start => exact ⟨[], .start⟩
  | step before isAllowed goesOn ih =>
      obtain ⟨noted, hNotes⟩ := ih
      exact ⟨_, .step hNotes isAllowed goesOn⟩

/-- A run whose steps are noted is a run. -/
theorem Notes.reaches {β : Type} {observe : Machine ν → List Extent → Option β}
    {noted : List β} (h : Notes allowed observe start opened noted m ledger) :
    Reaches allowed start opened m ledger := by
  induction h with
  | start => exact .start
  | step before isAllowed goesOn ih => exact .step ih isAllowed goesOn

/-- A run all of whose machines are allowed is one under any weaker condition. -/
theorem Reaches.mono {weaker : Machine ν → List Extent → Prop}
    (h : Reaches allowed start opened m ledger)
    (hWeaker : ∀ m ledger, allowed m ledger → weaker m ledger) :
    Reaches weaker start opened m ledger := by
  induction h with
  | start => exact .start
  | step before isAllowed goesOn ih => exact .step ih (hWeaker _ _ isAllowed) goesOn

/-- A run that goes on. -/
theorem Reaches.trans {start middle : Machine ν} {opened between : List Extent}
    (h : Reaches allowed start opened middle between)
    (hLater : Reaches allowed middle between m ledger) :
    Reaches allowed start opened m ledger := by
  induction hLater with
  | start => exact h
  | step before isAllowed goesOn ih => exact .step ih isAllowed goesOn

end

namespace Machine

variable {ν : Type}

/-- The ledger of a machine that has run no code yet. -/
def opened (m : Machine ν) : List Extent :=
  if m.context.isSome then [.thread] else []

/-- A step of a run whose handles are closed innermost first, and in which nothing
foreign stops a raise.

Code that stops every unwinding is still allowed to stop panics. -/
def Orderly (m : Machine ν) (ledger : List Extent) : Prop :=
  m.InTurn ledger ∧ ¬ m.StopsRaise

/-- A step of an orderly run in which no handle opened while the thread was unwinding is
left by a raise.

In a strict run a handle that was opened while the thread was unwinding can be left in
any way but by a raise. None of the three conditions can be left out: the bookkeeping
fails without it. -/
def Strict (m : Machine ν) (ledger : List Extent) : Prop :=
  m.Orderly ledger ∧ ¬ m.LeavesStale

end Machine

/-! ## Following a run -/

section

variable {ν : Type} (m : Machine ν) (ledger : List Extent)

/-- Whether the innermost extent is a region that runs a handler. -/
def handles (visit : Visit) : List Extent → Bool
  | .protecting innermost (.handler _) :: _ => innermost = visit
  | _ => false

/-- A region handles just if it is the innermost extent and a handler of it runs. -/
theorem handles_iff {visit : Visit} {ledger : List Extent} :
    handles visit ledger = true ↔ ∃ caught,
      ledger.head? = some (.protecting visit (.handler caught)) := by
  constructor
  · intro h
    unfold handles at h
    split at h
    · next caught _ =>
        obtain rfl := of_decide_eq_true h
        exact ⟨caught, rfl⟩
    · cases h
  · rintro ⟨caught, h⟩
    obtain ⟨rest, rfl⟩ := List.head?_eq_some_iff.1 h
    simp [handles]

instance : Decidable (m.InTurn ledger) :=
  decidable_of_iff ((∀ extent ∈ m.closing?, ledger.head? = some extent) ∧
    ∀ visit ∈ m.endsHandler?, handles visit ledger = true)
    ⟨fun h => ⟨h.1, fun visit hEnds => handles_iff.1 (h.2 visit hEnds)⟩,
      fun h => ⟨h.closing, fun visit hEnds => handles_iff.2 (h.handler visit hEnds)⟩⟩

instance : Decidable m.StopsRaise :=
  decidable_of_iff
    ((match m.focus, m.control with
      | .unwind .raise, .attempt _ :: _ => true
      | _, _ => false) = true) (by
    constructor
    · intro h
      split at h
      · next hFocus hControl => exact ⟨hFocus, _, _, hControl⟩
      · cases h
    · rintro ⟨hFocus, resume, below, hControl⟩
      rw [hFocus, hControl])

instance : Decidable m.LeavesStale :=
  decidable_of_iff
    ((match m.focus, m.control with
      | .drop handle, .unwinding .raise :: _ => handle.inUnwinding
      | _, _ => false) = true) (by
    constructor
    · intro h
      split at h
      · next hFocus hControl => exact ⟨_, _, hFocus, h, hControl⟩
      · cases h
    · rintro ⟨handle, below, hFocus, hOld, hControl⟩
      rw [hFocus, hControl]
      exact hOld)

instance : Decidable (m.Orderly ledger) :=
  inferInstanceAs (Decidable (_ ∧ _))

instance : Decidable (m.Strict ledger) :=
  inferInstanceAs (Decidable (_ ∧ _))

end

/-- The machine and the ledger after so many steps that are all allowed.

Since all conditions on steps are decidable, runs of a concrete program can be followed
by computation. The witnesses of the laws are found in this way. -/
def follow {ν : Type} (allowed : Machine ν → List Extent → Prop)
    [∀ m ledger, Decidable (allowed m ledger)] :
    Nat → Machine ν → List Extent → Option (Machine ν × List Extent)
  | 0, m, ledger => some (m, ledger)
  | count + 1, m, ledger =>
      if allowed m ledger ∧ m.step.poisoned = false then
        follow allowed count m.step (m.move.apply ledger) else none

/-- What a run is followed to, step by step as long as the steps are allowed, it
reaches. -/
theorem Reaches.follow {ν : Type} {allowed : Machine ν → List Extent → Prop}
    [∀ m ledger, Decidable (allowed m ledger)] {start m after : Machine ν}
    {opened ledger left : List Extent} (h : Reaches allowed start opened m ledger)
    {count : Nat}
    (hFollow : Unwinding.follow allowed count m ledger = some (after, left)) :
    Reaches allowed start opened after left := by
  induction count generalizing m ledger with
  | zero =>
      cases hFollow
      exact h
  | succ count ih =>
      unfold Unwinding.follow at hFollow
      split at hFollow
      · next hStep => exact ih (.step h hStep.1 hStep.2) hFollow
      · cases hFollow

/-- A run that is followed to a state that passes a test. -/
theorem Reaches.of_follow {ν : Type} {allowed : Machine ν → List Extent → Prop}
    [∀ m ledger, Decidable (allowed m ledger)] {start : Machine ν}
    {opened : List Extent} (count : Nat) (test : Machine ν → List Extent → Bool)
    (h : (Unwinding.follow allowed count start opened).any
      (fun state => test state.1 state.2) = true) :
    ∃ m ledger, Reaches allowed start opened m ledger ∧ test m ledger = true := by
  cases hFollow : Unwinding.follow allowed count start opened with
  | none =>
      rw [hFollow] at h
      cases h
  | some state =>
      rw [hFollow] at h
      exact ⟨state.1, state.2, Reaches.start.follow hFollow, h⟩

end Unwinding
