import Unwinding.Proofs.Beneath
import Unwinding.Proofs.CallExits
import Unwinding.Proofs.Exits
import Unwinding.Proofs.Panics

/-!
# Recovery in a guard body

A guard body that runs while an unwinding is held up may use the whole runtime: it may
enter a protected region and raise in it. `raise_is_handled` follows such a raise from
the step that raises it. It comes to its region, which receives exactly what was raised,
and the handler of the first clause that fits begins; and when the guard body has
returned, the unwinding that it held up goes on, with the exception that was in flight
before.

What is said of a run on its way is said by `Arrives`: whatever guard bodies begin on
the way, the run comes to its target when they return, and no step in between terminates
the thread. Two things are asked of the steps. Handles are closed in turn; and the raise
leaves no traced call and no explicit region that was opened while the thread was
unwinding (`Machine.IsDeceived`). The second cannot be dropped (`staleRegion_fails`):
such a handle takes the raise for a return.

Every step makes the machine lighter, so a run that is not held up cannot go on forever,
and the laws are proved by induction on the weight.

## Main results

* `Aboard.recovers` — a raise comes to its region.
* `Aboard.resumes` — an unwinding that a guard scope held up goes on.
* `raise_is_handled` — both, for the guard bodies of every run that closes in turn.
-/

namespace Unwinding

open Context

variable {ν : Type}

/-! ## Runs on their way -/

/-- From a machine on, every run that keeps to the allowed steps comes to a target. No
step on the way terminates the thread; and if a guard body begins, the run goes on from
where that body has returned.

This is a statement about every continuation, and not only about one that is given: so
it says that the target is reached, and not just that the right thing holds if it is.
Guard bodies are skipped, because they may run anything; it is enough that they
return. -/
inductive Arrives (allowed target : Machine ν → List Extent → Prop) :
    Machine ν → List Extent → Prop
  | there {m : Machine ν} {ledger : List Extent} (isTarget : target m ledger) :
      Arrives allowed target m ledger
  | goesOn {m : Machine ν} {ledger : List Extent}
      (clear : allowed m ledger → m.step.poisoned = false)
      (next : allowed m ledger → Arrives allowed target m.step (m.move.apply ledger)) :
      Arrives allowed target m ledger
  | holds {m : Machine ν} {ledger : List Extent}
      (begins : ∃ mark, m.deed = .shields mark)
      (next : ∀ last inner, Shielded m last ledger inner →
        Arrives allowed target last.step (last.move.apply inner)) :
      Arrives allowed target m ledger

section

variable {allowed target : Machine ν → List Extent → Prop} {m after : Machine ν}
  {ledger left : List Extent}

/-- A run that comes to a target, from where it comes to another one. -/
theorem Arrives.bind {middle : Machine ν → List Extent → Prop}
    (h : Arrives allowed middle m ledger)
    (hNext : ∀ m ledger, middle m ledger → Arrives allowed target m ledger) :
    Arrives allowed target m ledger := by
  induction h with
  | there isTarget => exact hNext _ _ isTarget
  | goesOn clear _ ih => exact .goesOn clear ih
  | holds begins _ ih => exact .holds begins ih

/-- A step that the law about a run is proved for. -/
theorem Arrives.of_step
    (h : allowed m ledger → m.step.poisoned = false ∧
      Arrives allowed target m.step (m.move.apply ledger)) :
    Arrives allowed target m ledger :=
  .goesOn (fun isAllowed => (h isAllowed).1) fun isAllowed => (h isAllowed).2

/-- A machine that has stopped comes to no other state. -/
theorem Arrives.of_stopped (h : Arrives allowed target m ledger) (hStop : m.IsStopped)
    (isAllowed : allowed m ledger) : target m ledger := by
  obtain ⟨how, hFocus⟩ := hStop
  have hStep : m.step = m := by simp only [Machine.step, hFocus]
  have hMove : m.move.apply ledger = ledger := by
    simp only [Machine.move, hFocus, Move.apply]
  induction h with
  | there isTarget => exact isTarget
  | goesOn clear _ ih =>
      have hAgain := ih isAllowed
      rw [hStep, hMove] at hAgain
      exact hAgain isAllowed hFocus hStep hMove
  | holds begins _ _ =>
      obtain ⟨mark, hDeed⟩ := begins
      simp only [Machine.deed, hFocus] at hDeed
      cases hDeed

/-- A run that begins no guard body and comes to an end has come to the target. -/
theorem Arrives.met (h : Arrives allowed target m ledger)
    (hRun :
      Reaches (fun m ledger => allowed m ledger ∧ ¬ ∃ mark, m.deed = .shields mark)
      m ledger after left)
    (hStop : after.IsStopped) (isAllowed : allowed after left) :
    ∃ middle between, Reaches allowed m ledger middle between ∧
      target middle between := by
  have hAllowed := hRun.mono fun _ _ hBoth => hBoth.1
  have hMet : (∃ middle between, Reaches allowed m ledger middle between ∧
      target middle between) ∨ Arrives allowed target after left := by
    clear hAllowed hStop isAllowed
    induction hRun with
    | start => exact .inr h
    | step before isAllowed goesOn ih =>
        obtain hMet | hOn := ih
        · exact .inl hMet
        · cases hOn with
          | there isTarget =>
              exact .inl ⟨_, _, before.mono fun _ _ hBoth => hBoth.1, isTarget⟩
          | goesOn _ next => exact .inr (next isAllowed.1)
          | holds begins _ => exact absurd begins isAllowed.2
  obtain hMet | hOn := hMet
  · exact hMet
  · exact ⟨after, left, hAllowed, hOn.of_stopped hStop isAllowed⟩

end

/-! ## What is known all along a run -/

/-- What is known of a machine all along a run that closes in turn. -/
structure Charted (m : Machine ν) (ledger : List Extent) : Prop where
  surveyed : ∃ pile, Surveyed m ledger pile
  labelled : Labelled m ledger
  tallied : Tallied m ledger

section

variable {m last : Machine ν} {ledger outer inner : List Extent} {raised : Raised}

private theorem Charted.step (h : Charted m ledger) (hTurn : m.InTurn ledger)
    (hGoesOn : m.step.poisoned = false) : Charted m.step (m.move.apply ledger) := by
  obtain ⟨pile, hSurveyed⟩ := h.surveyed
  exact ⟨⟨_, hSurveyed.step hTurn hGoesOn⟩, h.labelled.step hTurn hGoesOn,
    h.tallied.step hTurn hGoesOn⟩

private theorem charted_start (process : Process) (auto : Bool) (limits : Option Limits)
    (body : List (Stmt ν)) :
    Charted (Machine.start process auto limits body)
      (Machine.start process auto limits body).opened :=
  ⟨⟨[], surveyed_start process auto limits body⟩,
    labelled_start process auto limits body, tallied_start process auto limits body⟩

private theorem Charted.reaches {allowed : Machine ν → List Extent → Prop}
    {start : Machine ν} {opened : List Extent} (hStart : Charted start opened)
    (h : Reaches allowed start opened m ledger)
    (hAllowed : ∀ m ledger, allowed m ledger → m.InTurn ledger) : Charted m ledger := by
  induction h with
  | start => exact hStart
  | step before isAllowed goesOn ih => exact ih.step (hAllowed _ _ isAllowed) goesOn

private theorem Charted.stands (h : Charted m ledger) : Stands m ledger :=
  h.tallied.stands

private theorem Charted.remembers (h : Charted m ledger) :
    ∃ known, Remembers known m := by
  obtain ⟨_, hSurveyed⟩ := h.surveyed
  obtain ⟨known, hLaden⟩ := hSurveyed.laden
  exact ⟨known, hLaden.remembers⟩

private theorem Charted.shielded (h : Charted m outer)
    (hBody : Shielded m last outer inner) :
    Charted last.step (last.move.apply inner) :=
  ((h.step hBody.isTurn hBody.goesOn).reaches hBody.inside fun _ _ hInside =>
    hInside.1).step hBody.isLast.1 hBody.returns

/-- The context is there while something other than the thread is open. -/
theorem Charted.context (h : Charted m ledger) (hOpen : ledger ≠ []) :
    ∃ context, m.context = some context := by
  cases hContext : m.context with
  | some context => exact ⟨context, rfl⟩
  | none => exact absurd (h.stands.closed hContext) hOpen

/-- An exception whose record is in flight is on its way. -/
theorem Machine.Sends.airborne {known : Lineage} (h : m.Sends raised)
    (hStands : Stands m ledger) (hKnown : Remembers known m) (hFree : m.inUse = false) :
    Airborne raised known m ledger := by
  obtain ⟨context, index, record, hContext, hIndex, hRecord, rfl⟩ := h
  refine ⟨hStands, hKnown, hFree, context, index, hContext, hIndex, ?_⟩
  rw [← (hKnown.records context hContext).means, List.getElem?_map,
    Record.toException_eq_against]
  have hThere : context.entries.records[index]? = some record :=
    Stack.getElem?_toList.trans hRecord
  rw [hThere]
  rfl

/-- A machine with what is in flight, while no message is written. -/
structure Aboard (cargo : Raised → Prop) (m : Machine ν) (ledger : List Extent) :
    Prop where
  charted : Charted m ledger
  free : m.inUse = false
  sends : ∀ raised, cargo raised → ∃ known, Airborne raised known m ledger

variable {cargo : Raised → Prop}

private theorem Aboard.goesOn (h : Aboard cargo m ledger) (hTurn : m.InTurn ledger)
    (hNew : ∀ kind site message, m.focus ≠ .exec (.raise kind site message))
    (hPass : m.deed.LetsPass) (hGoesOn : m.step.poisoned = false) :
    Aboard cargo m.step (m.move.apply ledger) := by
  refine ⟨h.charted.step hTurn hGoesOn, ?_, fun raised hCargo => ?_⟩
  · exact (Machine.did_step h.charted.stands.clear hGoesOn).idle fun _ => ⟨h.free, hNew⟩
  · obtain ⟨known, hAirborne⟩ := h.sends raised hCargo
    exact ⟨_, hAirborne.goesOn hTurn hNew hPass hGoesOn⟩

private theorem Aboard.shielded (h : Aboard cargo m outer)
    (hBody : Shielded m last outer inner) :
    Aboard cargo last.step (last.move.apply inner) := by
  refine ⟨h.charted.shielded hBody, ?_, fun raised hCargo => ?_⟩
  · obtain ⟨known, hKnown⟩ := h.charted.remembers
    obtain ⟨mark, hDeed⟩ := hBody.begins
    have hFits := h.charted.stands.fits hBody.isTurn
    rw [hDeed] at hFits
    obtain ⟨context, hContext⟩ := h.charted.context fun hNil => by
      rw [hNil] at hFits
      cases hFits
    exact (hBody.restores h.charted.stands hKnown hContext).2.idle
  · obtain ⟨known, hAirborne⟩ := h.sends raised hCargo
    exact hAirborne.holds hBody

end

/-! ## Handles that are deceived -/

/-- Whether a handle takes every unwinding for a return: a traced call or an explicit
region does that was opened while the thread was already unwinding. -/
def Handle.isDeceived : Handle ν → Bool
  | .region _ inUnwinding => inUnwinding
  | .call _ inUnwinding => inUnwinding
  | _ => false

/-- A raise is about to drop a handle that takes it for a return. -/
def Machine.IsDeceived (m : Machine ν) : Prop :=
  ∃ handle below, m.focus = .drop handle ∧ handle.isDeceived = true ∧
    m.control = .unwinding .raise :: below

/-- A step that closes in turn and by which no handle is deceived.

Handles that take an unwinding for a return are those of calls and explicit regions. A
guard scope is not among them: to run the wrong bodies loses no record. -/
def Machine.Candid (m : Machine ν) (ledger : List Extent) : Prop :=
  m.InTurn ledger ∧ ¬ m.IsDeceived

instance (m : Machine ν) : Decidable m.IsDeceived :=
  decidable_of_iff
    ((match m.focus, m.control with
      | .drop handle, .unwinding .raise :: _ => handle.isDeceived
      | _, _ => false) = true) (by
    constructor
    · intro h
      split at h
      · next hFocus hControl => exact ⟨_, _, hFocus, h, hControl⟩
      · cases h
    · rintro ⟨handle, below, hFocus, hOld, hControl⟩
      rw [hFocus, hControl]
      exact hOld)

instance (m : Machine ν) (ledger : List Extent) : Decidable (m.Candid ledger) :=
  inferInstanceAs (Decidable (_ ∧ _))

/-! ## An unwinding that is held up -/

/-- The next step brings an unwinding that is held up closer to going on. -/
structure Machine.Eases (m : Machine ν) : Prop where
  clear : m.step.poisoned = false
  passes : m.deed.LetsPass
  bare : m.step.bare = m.bare
  focus : m.step.focus = .next ∨ ∃ scope, m.step.focus = .leaveScope scope

section

variable {m : Machine ν} {ledger : List Extent} {below : List (Resumption ν)}

/-- While an unwinding drops a handle the thread is unwinding. -/
theorem Charted.isPanicking (h : Charted m ledger) {handle : Handle ν}
    {payload : Payload} (hFocus : m.focus = .drop handle)
    (hControl : m.control = .unwinding payload :: below) :
    m.isPanicking = true := by
  obtain ⟨_, hSurveyed⟩ := h.surveyed
  obtain ⟨_, hLaden⟩ := hSurveyed.laden
  obtain ⟨_, _, hFlows, -⟩ := hLaden.burden
  exact isPanicking_of_drops hFlows hFocus
    (by simp [Machine.dropsByUnwinding, hControl])

/-- A region on top of what is open can be left by an unwinding. -/
theorem Charted.leaves (h : Charted m ledger) {context : Context} {visit : Visit}
    (hContext : m.context = some context)
    (hFits : (Deed.leaves visit true .nothing).Fits ledger) :
    Ends (Context.leave visit true context) (fun _ _ => True) fun _ => False := by
  obtain ⟨_, hSurveyed⟩ := h.surveyed
  obtain ⟨_, hLaden⟩ := hSurveyed.laden
  obtain ⟨_, hSized⟩ := hSurveyed.beside.sized hContext
  have hFlight (index : Nat) (hIndex : context.inFlight = some index) :
      index < context.entries.records.length := by
    obtain ⟨hCounts, hLow, -⟩ := hLaden.above_inFlight hContext hIndex
    exact hCounts ▸ hLow
  obtain ⟨after, hOk, -⟩ :=
    leaves_of_aligned (hSurveyed.upright.aligned context hContext)
    (h.stands.nested context hContext) hSized hFits hFlight
  rw [hOk]
  trivial

/-- A traced call on top of what is open can be left by an unwinding. -/
theorem Charted.leavesCall {entry : Depths} {rest : List Extent}
    (h : Charted m (.call entry :: rest)) {context : Context}
    (hContext : m.context = some context) :
    Ends (Context.leaveCall entry true context) (fun _ _ => True) fun _ => False := by
  obtain ⟨_, hSurveyed⟩ := h.surveyed
  have hAligned := hSurveyed.upright.aligned context hContext
  have hDeep : entry.frames < context.frames.depth := by
    have hEntry : entry.heights = heights rest := hAligned.recalled.1 entry rfl
    have hFrames : context.entries.frames.length = (heights rest).frames + 1 :=
      hAligned.frames
    have hBelow : entry.frames = (heights rest).frames := congrArg Heights.frames hEntry
    have hDepth : context.frames.depth = context.entries.frames.length :=
      context.frames.depth_eq
    omega
  obtain ⟨hLow, -⟩ | ⟨-, -, hOk⟩ | ⟨-, hNot, -⟩ := leaveCall_cases context entry true
  · exact absurd hDeep (Nat.not_lt.2 hLow)
  · rw [hOk]
    trivial
  · cases hNot

/-- A handle that a raise drops lets the raise go on, unless it is deceived. -/
theorem Charted.eases_drop (h : Charted m ledger) (hFree : m.inUse = false)
    (isCandid : m.Candid ledger) {handle : Handle ν} (hFocus : m.focus = .drop handle)
    (hControl : m.control = .unwinding .raise :: below) (hOpen : handle ≠ .thread) :
    m.Eases := by
  obtain ⟨hTurn, hHonest⟩ := isCandid
  have hPanicking := h.isPanicking hFocus hControl
  have hStep : m.step = m.drop handle := by simp only [Machine.step, hFocus]
  have hClear := h.stands.clear
  have hClosing (extent : Extent) (hExtent : handle.extent? = some extent) :
      ledger.head? = some extent :=
    hTurn.closing extent (by simp only [Machine.closing?, hFocus]; exact hExtent)
  cases handle with
  | thread => exact absurd rfl hOpen
  | region visit inUnwinding =>
      obtain rfl : inUnwinding = false :=
        Bool.eq_false_iff.2 fun hOld => hHonest ⟨_, _, hFocus, hOld, hControl⟩
      have hHead := hClosing _ rfl
      obtain ⟨context, hContext⟩ := h.context fun hNil => by
        rw [hNil] at hHead
        cases hHead
      have hLeave : m.step = m.perform (Context.leave visit true)
          fun m _ => m.goto .next := by
        rw [hStep]
        simp [Machine.drop, hClear, hPanicking]
      obtain ⟨_, after, -, -, hNext⟩ :=
        Machine.perform_answers (fun m _ => m.goto .next)
        hContext hFree (h.leaves hContext (.inl hHead))
      rw [hNext] at hLeave
      refine ⟨hLeave ▸ hClear, ?_, hLeave ▸ rfl, .inl (hLeave ▸ rfl)⟩
      simp [Machine.deed, hFocus, hPanicking, Deed.LetsPass]
  | call entry inUnwinding =>
      obtain rfl : inUnwinding = false :=
        Bool.eq_false_iff.2 fun hOld => hHonest ⟨_, _, hFocus, hOld, hControl⟩
      obtain ⟨rest, rfl⟩ := List.head?_eq_some_iff.1 (hClosing _ rfl)
      obtain ⟨context, hContext⟩ := h.context (List.cons_ne_nil _ _)
      have hLeave : m.step =
          m.perform (Context.leaveCall entry true) fun m _ => m.goto .next := by
        rw [hStep]
        simp [Machine.drop, hClear, hPanicking]
      obtain ⟨_, after, -, -, hNext⟩ :=
        Machine.perform_answers (fun m _ => m.goto .next)
        hContext hFree (h.leavesCall hContext)
      rw [hNext] at hLeave
      refine ⟨hLeave ▸ hClear, ?_, hLeave ▸ rfl, .inl (hLeave ▸ rfl)⟩
      simp only [Machine.deed, hFocus, Deed.LetsPass]
  | guards scope =>
      have hPass : m.deed.LetsPass := by simp only [Machine.deed, hFocus, Deed.LetsPass]
      cases hMark : scope.mark with
      | none =>
          have hDrop : m.step = m.goto .next := by
            simp only [hStep, Machine.drop, hMark]
          exact ⟨hDrop ▸ hClear, hPass, hDrop ▸ rfl, .inl (hDrop ▸ rfl)⟩
      | some mark =>
          have hDrop : m.step = m.goto (.leaveScope
              ⟨scope.site, mark, m.isPanicking && !scope.inUnwinding, scope.bodies⟩) :=
                by
            simp [hStep, Machine.drop, hMark, hClear]
          exact ⟨hDrop ▸ hClear, hPass, hDrop ▸ rfl,
            .inr ⟨_, congrArg Machine.focus hDrop⟩⟩

/-- A scope that is left lets an unwinding go on, or begins a guard body. -/
theorem Charted.eases_leaveScope (h : Charted m ledger) (hFree : m.inUse = false)
    {scope : Leaving ν} (hFocus : m.focus = .leaveScope scope) :
    m.Eases ∨ ∃ mark, m.deed = .shields mark := by
  cases hBodies : scope.bodies with
  | nil =>
      have hPoised := h.stands.poised
      rw [hFocus] at hPoised
      obtain ⟨rest, rfl⟩ := hPoised
      obtain ⟨hGoesOn, -⟩ := h.labelled.pops hFocus hBodies hFree
      have hStep : m.step =
          m.perform (closeScope scope.mark) fun m _ => m.goto .next := by
        simp only [Machine.step, hFocus, Machine.leaveScope, hBodies]
      obtain ⟨_, _, after, -, -, hNext⟩ := Machine.performed hStep hGoesOn
      refine .inl ⟨hGoesOn, ?_, hNext ▸ rfl, .inl (hNext ▸ rfl)⟩
      simp only [Machine.deed, hFocus, hBodies, Deed.LetsPass]
  | cons registered bodies =>
      obtain ⟨flavor, body⟩ := registered
      by_cases hApplies : flavor.applies scope.unwinding = true
      · exact .inr ⟨scope.mark, by
          simp only [Machine.deed, hFocus, hBodies, hApplies, if_true]⟩
      · have hStep := Machine.step_of_not_applies hFocus hBodies hApplies
        refine .inl ⟨hStep ▸ h.stands.clear, ?_, hStep ▸ rfl,
          .inr ⟨_, congrArg Machine.focus hStep⟩⟩
        simp only [Machine.deed, hFocus, hBodies, hApplies, if_false, Deed.LetsPass,
          Bool.false_eq_true]

end

/-! ## Scopes that hold an unwinding up -/

section

variable {m last : Machine ν} {ledger outer inner : List Extent} {cargo : Raised → Prop}
  {payload : Payload} {under : List (Resumption ν)}

/-- A machine that has something to do gets lighter by doing it. -/
private theorem Machine.weight_step_lt_of_focus {focus : Focus ν}
    (hFocus : m.focus = focus) (hBusy : ∀ how, focus ≠ .stopped how) :
    m.step.weight < m.weight :=
  m.weight_step_lt fun hStopped => hStopped.elim fun how hStop =>
    hBusy how (hFocus ▸ hStop)

/-- Code that waits for an unwinding to go on. -/
private theorem control_of_bare (h : m.bare = .unwinding payload :: under) :
    ∃ below, m.control = .unwinding payload :: below ∧ below.map Resumption.bare =
      under := by
  obtain ⟨waiting, below, hControl, hTop, hBelow⟩ := List.map_eq_cons_iff.1 h
  refine ⟨below, ?_, hBelow⟩
  rw [hControl]
  cases waiting <;> first | exact congrArg (· :: below) hTop | cases hTop

/-- An unwinding that is held up by a scope, or by nothing any more, goes on. -/
private theorem Aboard.resumes_of_weight (bound : Nat) (h : Aboard cargo m ledger)
    (hWeight : m.weight ≤ bound) (hBare : m.bare = .unwinding payload :: under)
    (hFocus : m.focus = .next ∨ ∃ scope, m.focus = .leaveScope scope) :
    Arrives Machine.Candid
      (fun after left => after.focus = .unwind payload ∧ after.bare = under ∧
        Aboard cargo after left ∧ after.weight < bound) m ledger := by
  induction bound using Nat.strongRecOn generalizing m ledger with
  | ind bound ih =>
      obtain ⟨below, hControl, hBelow⟩ := control_of_bare hBare
      obtain hNext | ⟨scope, hScope⟩ := hFocus
      · have hLess : m.step.weight < m.weight :=
          m.weight_step_lt_of_focus hNext (by simp)
        have hStep : m.step =
            ({ m with control := below } : Machine ν).goto (.unwind payload) := by
          simp only [Machine.step, hNext, Machine.proceed, hControl]
        refine .of_step fun isCandid => ?_
        have hGoesOn : m.step.poisoned = false := hStep ▸ h.charted.stands.clear
        refine ⟨hGoesOn, .there ⟨hStep ▸ rfl, ?_, ?_, by omega⟩⟩
        · rw [hStep]
          exact hBelow
        · exact h.goesOn isCandid.1
            (fun _ _ _ hRaise => by cases hNext.symm.trans hRaise)
            (by simp only [Machine.deed, hNext, Deed.LetsPass]) hGoesOn
      · have hLess : m.step.weight < m.weight :=
          m.weight_step_lt_of_focus hScope (by simp)
        obtain hEases | hShields := h.charted.eases_leaveScope h.free hScope
        · refine .of_step fun isCandid => ⟨hEases.clear, ?_⟩
          have hAfter := h.goesOn isCandid.1
            (fun _ _ _ hRaise => by cases hScope.symm.trans hRaise) hEases.passes
              hEases.clear
          refine (ih m.step.weight (by omega) hAfter (Nat.le_refl _)
            (hEases.bare.trans hBare) hEases.focus).bind fun after left hTarget =>
              .there ?_
          exact ⟨hTarget.1, hTarget.2.1, hTarget.2.2.1, by omega⟩
        · refine .holds hShields fun last inner hBody => ?_
          obtain ⟨known, hKnown⟩ := h.charted.remembers
          obtain ⟨hLeaves, hSame⟩ := hBody.resumes h.charted.tallied hKnown
          have hLighter := hBody.weight_lt
          refine (ih last.step.weight (by omega) (h.shielded hBody) (Nat.le_refl _)
            (hSame.trans hBare) (.inr hLeaves)).bind fun after left hTarget => .there ?_
          exact ⟨hTarget.1, hTarget.2.1, hTarget.2.2.1, by omega⟩

end

/-! ## A raise on its way to its region -/

/-- Whether a raise passes code that waits, without being caught or stopped there. -/
def Resumption.letsPass : Resumption ν → Bool
  | .block _ _ _ _ => true
  | .handler _ => true
  | .releasing => true
  | .resuming _ => true
  | .loop _ _ => true
  | _ => false

/-- The protected region that a raise comes to: the first one of which the body waits,
if nothing before it catches or stops the raise.

It is read off the code alone. That the runtime comes to the same region, through its
marks, is what the law says. -/
def Resumption.nearest? : List (Resumption ν) → Option (Protected ν)
  | [] => none
  | .body region :: _ => some region
  | waiting :: below => if waiting.letsPass then nearest? below else none

private theorem Resumption.of_nearest? {control : List (Resumption ν)}
    {region : Protected ν} (h : nearest? control = some region) :
    ∃ above below, control = above ++ .body region :: below ∧
      ∀ waiting ∈ above, waiting.letsPass = true := by
  induction control with
  | nil => cases h
  | cons waiting below ih =>
      have further (hPass : waiting.letsPass = true)
        (hRest : nearest? below = some region) :
          ∃ above under, waiting :: below = above ++ .body region :: under ∧
            ∀ passed ∈ above, passed.letsPass = true := by
        obtain ⟨above, under, rfl, hAbove⟩ := ih hRest
        exact ⟨waiting :: above, under, rfl, List.forall_mem_cons.2 ⟨hPass, hAbove⟩⟩
      cases waiting with
      | body found =>
          cases h
          exact ⟨[], below, rfl, by simp⟩
      | block word rest handles value => exact further rfl h
      | handler found => exact further rfl h
      | releasing => exact further rfl h
      | resuming payload => exact further rfl h
      | loop times body => exact further rfl h
      | _ => cases h

/-- The first clause of a region that fits an exception, and its index. -/
def Machine.fitting? (m : Machine ν) (region : Protected ν) (exception : Exception) :
    Option (Clause ν × Nat) :=
  region.clauses.zipIdx.find? fun (clause, _) =>
    m.registry.fits exception.kind clause.kind

/-- The clauses of a region are about to be tried on an exception that it has caught,
with its record; and the handler of the first one that fits begins with the next step,
with the exception in its variable. -/
structure Machine.Receives (m : Machine ν) (region : Protected ν)
    (exception : Exception) :
    Prop where
  offers : m.focus = .offer region exception
  records : m.Records exception
  handles : ∀ clause index, m.fitting? region exception = some (clause, index) →
    m.step.poisoned = false ∧ m.step.focus = .next ∧
      m.step.control = .block "" clause.handler [] none :: .handler region ::
        m.control ∧
      m.step.exception? clause.name = some exception

section

variable {m : Machine ν} {ledger : List Extent} {raised : Raised} {region : Protected ν}
  {path under : List (Resumption ν)}

/-- The handler of a clause can begin where the clauses of a region are tried. -/
private theorem answers_beginHandling {context : Context} {visit : Visit}
    {rest : List Extent} {caught : Exception}
    (h : Nested .thread (.protecting visit (.clauses caught) :: rest) context.entries) :
    Ends (beginHandling visit context) (fun _ _ => True) fun _ => False := by
  obtain ⟨_, hLayered, -⟩ := h
  obtain ⟨_, marks, _, hIds, hDispatch, -⟩ := hLayered.of_protecting Ground.firm_thread
  obtain ⟨innermost, outer, hRegions, hId, -⟩ := List.map_eq_cons_iff.1 hIds
  have hMark : context.dispatch.live = .region visit.id :: marks := hDispatch
  obtain ⟨popped, hPop, -⟩ := Stack.pop_of_live hMark
  refine ends_bind (ends_bind (ends_get ?_))
  rw [Stack.top?_of_live hMark]
  simp only [Dispatch.isGuard, Dispatch.owner, Bool.false_eq_true, if_false, and_self,
    if_true]
  refine ends_bind (ends_onDispatch (fun left _ => ends_pure ?_) fun error hError => ?_)
  · exact (@answers_setState { context with dispatch := left } visit innermost outer
      .handling hRegions hId).imp fun _ _ _ => trivial
  · rw [hPop] at hError
    cases hError

private theorem Charted.receives (h : Charted m ledger) (hFree : m.inUse = false)
    {exception : Exception} (hFocus : m.focus = .offer region exception)
    (hRecords : m.Records exception) : m.Receives region exception := by
  refine ⟨hFocus, hRecords, fun clause index hFits => ?_⟩
  have hPoised := h.stands.poised
  rw [hFocus] at hPoised
  obtain ⟨rest, rfl⟩ := hPoised
  obtain ⟨context, hContext⟩ := h.context (List.cons_ne_nil _ _)
  have hStep : m.step = m.perform (Context.beginHandling region.visit) fun m _ =>
      (((m.emit (.caught (m.view exception) index)).assign clause.name exception).push
        (.handler region)).enterBlock clause.handler := by
    unfold Machine.fitting? at hFits
    simp only [Machine.step, hFocus, Machine.offer, hFits]
  obtain ⟨_, after, -, -, hNext⟩ := Machine.perform_answers _ hContext hFree
    (answers_beginHandling (h.stands.nested context hContext))
  rw [hStep, hNext]
  refine ⟨h.stands.clear, rfl, rfl, ?_⟩
  simp [Machine.exception?, Machine.assign, Machine.push, Machine.enterBlock,
    Machine.goto]

end

section

variable {m : Machine ν} {ledger : List Extent} {raised : Raised} {region : Protected ν}
  {cargo : Raised → Prop} {path below under : List (Resumption ν)}

/-- What a raise comes to: its region has received it.

Both ends of the handling are named: that the region has received the exception, and
that the clause which fits is the one whose handler begins. -/
def Machine.Recovers (region : Protected ν) (raised : Raised) (m : Machine ν)
    (_ : List Extent) : Prop :=
  ∃ exception, exception.raised = raised ∧ m.Receives region exception

/-- While a region waits, something other than the thread is open. -/
private theorem Charted.not_thread (h : Charted m ledger)
    (hBare : .body region ∈ m.bare) : ledger.head? ≠ some .thread := by
  intro hHead
  obtain ⟨rest, rfl⟩ := List.head?_eq_some_iff.1 hHead
  obtain ⟨context, hContext⟩ := h.context (List.cons_ne_nil _ _)
  obtain ⟨_, hLayered, -⟩ := h.stands.nested context hContext
  obtain ⟨-, rfl⟩ := List.cons.inj hLayered.of_thread
  obtain ⟨_, hSurveyed⟩ := h.surveyed
  obtain ⟨_, hLaden⟩ := hSurveyed.laden
  obtain ⟨waiting, hMem, hSame⟩ := List.mem_map.1 hBare
  have hVisit : region.visit ∈ m.joints.filterMap Joint.visit? := by
    refine List.mem_filterMap.2 ⟨.region region.visit, ?_, rfl⟩
    refine List.mem_append_right _ (List.mem_map.2 ⟨waiting, hMem, ?_⟩)
    cases waiting <;> first | (cases hSame; rfl) | cases hSame
  cases hLaden.footing.woven.subset hVisit

/-- A raise has passed the innermost piece of the code that waits, or has dropped a
handle of it. -/
private def PassedTop (cargo : Raised → Prop) (under : List (Resumption ν))
    (bound : Nat) (after : Machine ν) (left : List Extent) : Prop :=
  after.focus = .unwind .raise ∧
    (after.bare = under ∨ ∃ word value, after.bare = .block word [] [] value :: under) ∧
    Aboard cargo after left ∧ after.weight < bound

/-- A raise passes code that waits with nothing to do. -/
private theorem Aboard.passes_idle (h : Aboard cargo m ledger)
    (hFocus : m.focus = .unwind .raise) (hPass : m.deed.LetsPass)
    (hStep : m.step = ({ m with control := below } : Machine ν).goto (.unwind .raise)) :
    Arrives Machine.Candid (PassedTop cargo (below.map Resumption.bare) m.weight)
      m ledger := by
  have hLess : m.step.weight < m.weight :=
    m.weight_step_lt_of_focus hFocus (by simp)
  refine .of_step fun isCandid => ?_
  have hGoesOn : m.step.poisoned = false := hStep ▸ h.charted.stands.clear
  refine ⟨hGoesOn, .there ⟨hStep ▸ rfl, .inl (hStep ▸ rfl), ?_, hLess⟩⟩
  exact h.goesOn isCandid.1 (fun _ _ _ hRaise => by cases hFocus.symm.trans hRaise)
    hPass hGoesOn

/-- A raise that leaves a handler leaves its region. -/
private theorem Aboard.passes_handler {inner : Protected ν} (h : Aboard cargo m ledger)
    (hFocus : m.focus = .unwind .raise)
    (hControl : m.control = .handler inner :: below) :
    Arrives Machine.Candid (PassedTop cargo (below.map Resumption.bare) m.weight)
      m ledger := by
  have hLess : m.step.weight < m.weight :=
    m.weight_step_lt_of_focus hFocus (by simp)
  refine .of_step fun isCandid => ?_
  obtain ⟨caught, hHead⟩ := isCandid.1.handler inner.visit
    (by simp only [Machine.endsHandler?, hFocus, hControl])
  obtain ⟨context, hContext⟩ := h.charted.context fun hNil => by
    rw [hNil] at hHead
    cases hHead
  have hLeaves := h.charted.leaves hContext
    (show (Deed.leaves inner.visit true .nothing).Fits ledger from .inr ⟨_, hHead⟩)
  have hStep : m.step = ({ m with control := below } : Machine ν).perform
      (Context.leave inner.visit true) fun m _ => m.goto (.unwind .raise) := by
    simp [Machine.step, hFocus, Machine.propagate, hControl, Machine.passThrough,
      h.charted.stands.clear]
  obtain ⟨_, after, -, -, hNext⟩ := Machine.perform_answers
    (m := ({ m with control := below } : Machine ν))
    (fun m _ => m.goto (.unwind .raise)) hContext h.free hLeaves
  rw [hNext] at hStep
  have hGoesOn : m.step.poisoned = false := hStep ▸ h.charted.stands.clear
  refine ⟨hGoesOn, .there ⟨hStep ▸ rfl, .inl (hStep ▸ rfl), ?_, hLess⟩⟩
  refine h.goesOn isCandid.1 (fun _ _ _ hRaise => by cases hFocus.symm.trans hRaise)
    ?_ hGoesOn
  simp only [Machine.deed, hFocus, hControl, Deed.LetsPass]

/-- A raise that is held up by a handle goes on when the handle is gone. -/
private theorem Aboard.passes_handle {handle : Handle ν} (h : Aboard cargo m ledger)
    (hFocus : m.focus = .drop handle) (hBare : m.bare = .unwinding .raise :: under)
    (hRegion : .body region ∈ under) :
    Arrives Machine.Candid
      (fun after left => after.focus = .unwind .raise ∧ after.bare = under ∧
        Aboard cargo after left ∧ after.weight < m.weight) m ledger := by
  have hLess : m.step.weight < m.weight :=
    m.weight_step_lt_of_focus hFocus (by simp)
  refine .of_step fun isCandid => ?_
  obtain ⟨_, hControl, -⟩ := control_of_bare hBare
  have hOpen : handle ≠ .thread := by
    rintro rfl
    refine @Charted.not_thread ν m ledger region h.charted ?_ ?_
    · rw [hBare]
      exact List.mem_cons_of_mem _ hRegion
    · exact isCandid.1.closing _ (by simp only [Machine.closing?, hFocus]; rfl)
  have hEases := h.charted.eases_drop h.free isCandid hFocus hControl hOpen
  have hAfter :=
    h.goesOn isCandid.1 (fun _ _ _ hRaise => by cases hFocus.symm.trans hRaise)
    hEases.passes hEases.clear
  refine ⟨hEases.clear, (hAfter.resumes_of_weight _ (Nat.le_refl _)
    (hEases.bare.trans hBare) hEases.focus).bind fun after left hOn => .there ?_⟩
  exact ⟨hOn.1, hOn.2.1, hOn.2.2.1, Nat.lt_trans hOn.2.2.2 hLess⟩

/-- A raise that passes a block drops the newest handle of the block first. -/
private theorem Aboard.passes_block {word : String} {rest : List (Stmt ν)}
    {handles : List (String × Handle ν)} {value : Option ν} (h : Aboard cargo m ledger)
    (hFocus : m.focus = .unwind .raise)
    (hControl : m.control = .block word rest handles value :: below)
    (hRegion : .body region ∈ below.map Resumption.bare) :
    Arrives Machine.Candid (PassedTop cargo (below.map Resumption.bare) m.weight)
      m ledger := by
  have hPass : m.deed.LetsPass := by
    simp only [Machine.deed, hFocus, hControl, Deed.LetsPass]
  cases handles with
  | nil =>
      refine h.passes_idle hFocus hPass ?_
      simp only [Machine.step, hFocus, Machine.propagate, hControl]
  | cons named handles =>
      obtain ⟨name, handle⟩ := named
      have hStep : m.step = ((({ m with control := below } : Machine ν).push
          (.block word [] handles value)).push (.unwinding .raise)).goto
            (.drop handle) := by
        simp only [Machine.step, hFocus, Machine.propagate, hControl]
      have hLess : m.step.weight < m.weight :=
        m.weight_step_lt_of_focus hFocus (by simp)
      refine .of_step fun isCandid => ?_
      have hGoesOn : m.step.poisoned = false := hStep ▸ h.charted.stands.clear
      have hDropping := h.goesOn isCandid.1
        (fun _ _ _ hRaise => by cases hFocus.symm.trans hRaise) hPass hGoesOn
      have hBare : m.step.bare = .unwinding .raise ::
          .block word [] [] value :: below.map Resumption.bare := by
        rw [hStep]
        rfl
      refine ⟨hGoesOn, (hDropping.passes_handle (congrArg Machine.focus hStep)
        hBare (List.mem_cons_of_mem _ hRegion)).bind fun after left hOn => .there ?_⟩
      exact ⟨hOn.1, .inr ⟨word, value, hOn.2.1⟩, hOn.2.2.1,
        Nat.lt_trans hOn.2.2.2 hLess⟩

/-- A raise passes code that does not catch or stop it. -/
private theorem Aboard.passes_top {waiting : Resumption ν} (h : Aboard cargo m ledger)
    (hFocus : m.focus = .unwind .raise) (hControl : m.control = waiting :: below)
    (hTop : waiting.bare.letsPass = true)
    (hRegion : .body region ∈ below.map Resumption.bare) :
    Arrives Machine.Candid (PassedTop cargo (below.map Resumption.bare) m.weight)
      m ledger := by
  have idle (hPass : m.deed.LetsPass)
      (hNext : m.propagate .raise =
        ({ m with control := below } : Machine ν).goto (.unwind .raise)) :
      Arrives Machine.Candid (PassedTop cargo (below.map Resumption.bare) m.weight)
        m ledger :=
    h.passes_idle hFocus hPass (by simp only [Machine.step, hFocus, hNext])
  cases waiting with
  | block word rest handles value => exact h.passes_block hFocus hControl hRegion
  | handler inner => exact h.passes_handler hFocus hControl
  | releasing =>
      refine idle ?_ ?_
      · simp only [Machine.deed, hFocus, hControl, Deed.LetsPass]
      · simp only [Machine.propagate, hControl]
  | resuming other =>
      refine idle ?_ ?_
      · simp only [Machine.deed, hFocus, hControl, Deed.LetsPass]
      · simp only [Machine.propagate, hControl]
  | loop times code =>
      refine idle ?_ ?_
      · simp only [Machine.deed, hFocus, hControl, Deed.LetsPass]
      · simp only [Machine.propagate, hControl]
  | _ => cases hTop

/-- A raise that has come to its region is received there. -/
private theorem Aboard.received (h : Aboard (· = raised) m ledger)
    (hFocus : m.focus = .unwind .raise) (hControl : m.control = .body region :: below) :
    Arrives Machine.Candid (Machine.Recovers region raised) m ledger := by
  obtain ⟨known, hAirborne⟩ := h.sends raised rfl
  refine .of_step fun isCandid => ?_
  obtain ⟨hGoesOn, hFree, -, exception, hOffer, hSame, hRecords⟩ :=
    hAirborne.receives isCandid.1 hFocus hControl
  exact ⟨hGoesOn, .there ⟨exception, hSame,
    (h.charted.step isCandid.1 hGoesOn).receives hFree hOffer hRecords⟩⟩

private theorem Aboard.recovers_of_weight (bound : Nat)
    (h : Aboard (· = raised) m ledger) (hWeight : m.weight ≤ bound)
    (hFocus : m.focus = .unwind .raise) (hBare : m.bare = path ++ .body region :: under)
    (hPath : ∀ waiting ∈ path, waiting.letsPass = true) :
    Arrives Machine.Candid (Machine.Recovers region raised) m ledger := by
  induction bound using Nat.strongRecOn generalizing m ledger path with
  | ind bound ih =>
      cases path with
      | nil =>
          obtain ⟨waiting, below, hControl, hTop, -⟩ := List.map_eq_cons_iff.1 hBare
          obtain rfl : waiting = .body region := by
            cases waiting <;> first | exact hTop | cases hTop
          exact h.received hFocus hControl
      | cons top path =>
          obtain ⟨waiting, below, hControl, rfl, hBelow⟩ := List.map_eq_cons_iff.1 hBare
          obtain ⟨hTop, hRest⟩ := List.forall_mem_cons.1 hPath
          have hRegion : .body region ∈ below.map Resumption.bare := by
            rw [hBelow]
            exact List.mem_append_right _ List.mem_cons_self
          refine (h.passes_top hFocus hControl hTop hRegion).bind fun after left hOn =>
            ?_
          obtain ⟨hUnwinds, hSame, hAboard, hLess⟩ := hOn
          obtain hGone | ⟨word, value, hStays⟩ := hSame
          · exact ih after.weight (by omega) hAboard (Nat.le_refl _) hUnwinds
              (hGone.trans hBelow) hRest
          · have hAgain : after.bare =
                (.block word [] [] value :: path) ++ .body region :: under := by
              rw [hStays, hBelow]
              rfl
            exact ih after.weight (by omega) hAboard (Nat.le_refl _) hUnwinds hAgain
              (List.forall_mem_cons.2 ⟨rfl, hRest⟩)

/-- A raise comes to the region that waits for it. -/
theorem Aboard.recovers (h : Aboard (· = raised) m ledger)
    (hFocus : m.focus = .unwind .raise)
    (hNearest : Resumption.nearest? m.control = some region) :
    Arrives Machine.Candid (Machine.Recovers region raised) m ledger := by
  obtain ⟨above, below, hControl, hAbove⟩ := Resumption.of_nearest? hNearest
  have hBare : m.bare =
      above.map Resumption.bare ++ .body region :: below.map Resumption.bare := by
    rw [Machine.bare, hControl, List.map_append]
    rfl
  refine h.recovers_of_weight _ (Nat.le_refl _) hFocus hBare fun waiting hMem => ?_
  obtain ⟨found, hFound, rfl⟩ := List.mem_map.1 hMem
  rw [← hAbove found hFound]
  cases found <;> rfl

end

/-! ## The step that raises -/

section

variable {m : Machine ν} {ledger : List Extent} {raised : Raised}

private theorem Deed.isRaise_of_raises? {entries : Entries} {deed : Deed}
    (h : deed.raises? entries = some raised) : deed.IsRaise := by
  cases deed <;> first | exact trivial | cases h

private theorem Deed.IsRaise.not_mild {closing : Option Extent} {deed : Deed}
    (h : deed.IsRaise) : ¬ deed.IsMild closing := by
  intro hMild
  cases deed <;> first | exact h | exact hMild

/-- A raise that a step on the context has made begins to pass the code that waits. -/
private theorem Machine.unwinds_finishRaise {raising : Raising}
    (hGoesOn : (m.finishRaise raising).poisoned = false) :
    (m.finishRaise raising).focus = .unwind .raise ∧
      (m.finishRaise raising).control = m.control := by
  unfold finishRaise at hGoesOn ⊢
  obtain ⟨_, uncaught, after, -, -, hNext⟩ := perform_goesOn hGoesOn
  rw [hNext] at hGoesOn ⊢
  cases uncaught with
  | none => exact ⟨rfl, rfl⟩
  | some exception => cases hGoesOn.symm.trans (poisoned_terminate _ _)

private theorem Machine.unwinds_forward {exception : Exception}
    (hGoesOn : (m.forward exception).poisoned = false) :
    (m.forward exception).focus = .unwind .raise ∧
      (m.forward exception).control = m.control := by
  unfold forward at hGoesOn ⊢
  obtain ⟨_, uncaught, after, -, -, hNext⟩ := perform_goesOn hGoesOn
  rw [hNext] at hGoesOn ⊢
  cases uncaught with
  | none => exact ⟨rfl, rfl⟩
  | some exception => cases hGoesOn.symm.trans (poisoned_terminate _ _)

private theorem Machine.not_raise_answering {α : Type} {step : Step α} {deed : α → Deed}
    (h : ∀ answer, ¬ (deed answer).IsRaise) : ¬ (m.answering step deed).IsRaise := by
  unfold answering
  split
  · exact id
  · split
    · exact h _
    · exact id

private theorem Machine.not_raise_closing : ¬ m.closing.IsRaise := by
  obtain h | h := m.closing_eq <;> rw [h] <;> exact id

/-- What raises is the end of a message, or the sending on of an exception. -/
private theorem Machine.raises_cases (h : m.deed.IsRaise) :
    (∃ raising pieces finished, m.focus = .write raising pieces ∧
      raising.finished? pieces = some finished) ∨ ∃ exception,
        m.focus = .forward exception := by
  cases hFocus : m.focus with
  | forward exception => exact .inr ⟨exception, rfl⟩
  | write raising pieces =>
      simp only [deed, hFocus] at h
      cases hFinished : raising.finished? pieces with
      | some finished => exact .inl ⟨raising, pieces, finished, rfl, hFinished⟩
      | none =>
          rw [hFinished] at h
          exact h.elim
  | exec stmt =>
      have hMild := mild_deedOf hFocus
      simp only [deed, hFocus] at h
      exact absurd hMild h.not_mild
  | drop handle =>
      simp only [deed, hFocus] at h
      cases handle with
      | thread => exact absurd h not_raise_closing
      | region visit inUnwinding =>
          dsimp only at h
          split at h <;> exact h.elim
      | _ => exact h.elim
  | leaveScope scope =>
      simp only [deed, hFocus] at h
      split at h
      · exact h.elim
      · split at h <;> exact h.elim
  | deliver value =>
      simp only [deed, hFocus] at h
      split at h
      · refine absurd h (not_raise_answering fun escape => ?_)
        cases escape <;> exact id
      · exact h.elim
      · exact absurd h not_raise_closing
      · exact h.elim
  | unwind payload =>
      simp only [deed, hFocus] at h
      split at h
      · split at h
        · exact absurd h (not_raise_answering fun _ => id)
        · exact h.elim
      · exact h.elim
      · split at h <;> exact h.elim
      · exact absurd h not_raise_closing
      · exact h.elim
  | offer region exception =>
      simp only [deed, hFocus] at h
      split at h <;> exact h.elim
  | _ =>
      simp only [deed, hFocus] at h
      exact h.elim

/-- When something has been raised, the code that waits is the same and the raise begins
to pass it. -/
theorem Machine.unwinds_of_raises (hRaises : m.raises? = some raised)
    (hGoesOn : m.step.poisoned = false) :
    m.step.focus = .unwind .raise ∧ m.step.control = m.control := by
  obtain ⟨raising, pieces, finished, hFocus, hFinished⟩ | ⟨exception, hFocus⟩ :=
    raises_cases (Deed.isRaise_of_raises? hRaises)
  · have hStep : m.step = m.finishRaise finished := by
      simp only [Machine.step, hFocus]
      cases pieces with
      | nil =>
          cases hFinished
          rfl
      | cons piece rest =>
          cases piece with
          | run body => cases hFinished
          | text text =>
              simp only [Raising.finished?] at hFinished
              simp only [Machine.write]
              cases hWrite : raising.buffer.write text with
              | mk buffer fits =>
                  rw [hWrite] at hFinished
                  cases fits with
                  | true => cases hFinished
                  | false =>
                      cases hFinished
                      rfl
    rw [hStep] at hGoesOn ⊢
    exact Machine.unwinds_finishRaise hGoesOn
  · have hStep : m.step = m.forward exception := by simp only [Machine.step, hFocus]
    rw [hStep] at hGoesOn ⊢
    exact Machine.unwinds_forward hGoesOn

end

/-! ## The law -/

/-- While an unwinding is held up by a guard scope, a body of the scope begins.

Whatever the body does, a raise in it comes to the innermost protected region that
waits, as long as nothing in between stops it: the region receives exactly what was
raised, with its record, and the handler of its first clause that fits begins. And when
the body has returned, the unwinding goes on as the one it was, and what was in flight
before the body began is in flight again. On the way, no step terminates the thread.

Both halves speak of every run that goes on from the given state, in the form of
`Arrives`: they say that the target is reached, not only what holds if it is. A handle
that was opened while the thread was unwinding, other than a guard scope, must not be
dropped by the raise, since it would take that for a return. -/
theorem raise_is_handled {process : Process} {auto : Bool} {limits : Option Limits}
    {body : List (Stmt ν)} {held : Machine ν} {outer : List Extent} {payload : Payload}
    {code : List (Resumption ν)}
    (h : Reaches Machine.InTurn (.start process auto limits body)
      (Machine.start process auto limits body).opened held outer)
    (hTurn : held.InTurn outer) (hBegins : ∃ mark, held.deed = .shields mark)
    (hHolds : held.control = .unwinding payload :: code)
    (hGoesOn : held.step.poisoned = false) :
    (∀ (raising : Machine ν) (opened : List Extent) (raised : Raised)
      (region : Protected ν),
      Reaches (Machine.Within outer) held.step (held.move.apply outer) raising opened →
      raising.Within outer opened → raising.raises? = some raised →
      raising.step.poisoned = false → Resumption.nearest? raising.control =
        some region →
      Arrives Machine.Candid (Machine.Recovers region raised) raising.step
        (raising.move.apply opened)) ∧
    ∀ (last : Machine ν) (inner : List Extent), Shielded held last outer inner →
      Arrives Machine.Candid
        (fun m _ => m.focus = .unwind payload ∧ ∀ raised, held.Sends raised →
          m.Sends raised)
        last.step (last.move.apply inner) := by
  have hHeld := (charted_start process auto limits body).reaches h fun _ _ => id
  constructor
  · intro raising opened raised region hInside hWithin hRaises hRaised hNearest
    have hRaising :=
      (hHeld.step hTurn hGoesOn).reaches hInside fun _ _ hAllowed => hAllowed.1
    obtain ⟨known, hKnown⟩ := hRaising.remembers
    obtain ⟨hFocus, hSame⟩ := Machine.unwinds_of_raises hRaises hRaised
    have hAirborne :=
      airborne_of_raises hRaising.stands hKnown hWithin.1 hRaises hRaised
    have hAboard : Aboard (· = raised) raising.step (raising.move.apply opened) :=
      ⟨hRaising.step hWithin.1 hRaised, hAirborne.idle,
        fun _ hCargo => hCargo ▸ ⟨_, hAirborne⟩⟩
    exact hAboard.recovers hFocus (hSame ▸ hNearest)
  · intro last inner hBody
    obtain ⟨mark, hDeed⟩ := hBegins
    obtain ⟨known, hKnown⟩ := hHeld.remembers
    obtain ⟨_, _, hStarts⟩ := Machine.begins_of_shields hHeld.stands.clear hGoesOn hDeed
    have hFree := hStarts.free
    have hAboard : Aboard held.Sends held outer :=
      ⟨hHeld, hFree, fun _ hSends => ⟨known, hSends.airborne hHeld.stands hKnown hFree⟩⟩
    obtain ⟨hScope, hSame⟩ := hBody.resumes hHeld.tallied hKnown
    have hBare : last.step.bare = .unwinding payload :: code.map Resumption.bare := by
      rw [hSame, Machine.bare, hHolds]
      rfl
    refine ((hAboard.shielded hBody).resumes_of_weight _ (Nat.le_refl _) hBare
      (.inr hScope)).bind fun m ledger hOn => .there ⟨hOn.1, fun raised hSends => ?_⟩
    obtain ⟨_, hAirborne⟩ := hOn.2.2.1.sends raised hSends
    exact hAirborne.sends

instance (m : Machine ν) : Decidable m.IsStopped :=
  decidable_of_iff
    ((match m.focus with
      | .stopped _ => true
      | _ => false) = true) (by
    constructor
    · intro h
      split at h
      · next how hFocus => exact ⟨how, hFocus⟩
      · cases h
    · rintro ⟨how, hFocus⟩
      rw [hFocus])

/-- While a raise unwinds, a guard body raises in a protected region of its own. -/
def undoing : List (Stmt Nat) :=
  [.protect 1 ⟨"main", 1, "main"⟩ .run catchAll
    [.acquire "guard" (.guards ⟨"main", 2, "main"⟩) 1,
      .guard "guard" .always
        [.protect 1 ⟨"main", 3, "undo"⟩ .run catchAll
          [.raise (.direct .illegalEscape) ⟨"main", 4, "undo"⟩ []]],
      .raise (.direct .illegalEscape) ⟨"main", 5, "main"⟩ []]]

private theorem Machine.of_dropsByUnwinding {m : Machine ν}
    (h : m.dropsByUnwinding = true) :
    ∃ payload below, m.control = .unwinding payload :: below := by
  unfold dropsByUnwinding at h
  split at h
  · next hControl => exact ⟨_, _, hControl⟩
  · cases h

/-- A step on the way to a target, that begins no guard body. -/
def Machine.Straight (m : Machine ν) (ledger : List Extent) : Prop :=
  m.Candid ledger ∧ ¬ ∃ mark, m.deed = .shields mark

instance (m : Machine ν) (ledger : List Extent) : Decidable (m.Straight ledger) :=
  inferInstanceAs (Decidable (_ ∧ _))

/-- A run that is followed to its end has come to its target on the way. -/
private theorem Arrives.met_of_follow {target : Machine ν → List Extent → Prop}
    {m : Machine ν} {ledger : List Extent} {count : Nat}
    (h : Arrives Machine.Candid target m ledger)
    (hFollow : (follow Machine.Straight count m ledger).any (fun state =>
      decide state.1.IsStopped && decide (state.1.Candid state.2)) = true) :
    ∃ middle between, target middle between := by
  obtain ⟨⟨after, left⟩, hRun, hEnd⟩ := (Option.any_eq_true _ _).1 hFollow
  rw [Bool.and_eq_true, decide_eq_true_eq, decide_eq_true_eq] at hEnd
  obtain ⟨middle, between, -, hTarget⟩ :=
    h.met (Reaches.start.follow hRun) hEnd.1 hEnd.2
  exact ⟨middle, between, hTarget⟩

/-- The law speaks of the guard body of `undoing`: its region receives the inner raise,
and the outer one goes on. -/
theorem raise_is_handled_undoing :
    ∃ (held m after : Machine Nat) (ledger : List Extent) (payload : Payload)
      (region : Protected Nat) (raised original : Raised),
      raised.origin = ⟨"main", 4, "undo"⟩ ∧ m.Recovers region raised ledger ∧
        held.Sends original ∧ after.focus = .unwind payload ∧ after.Sends original := by
  obtain ⟨held, outer, hReaches, hTest⟩ := Reaches.of_follow 14
    (fun (held : Machine Nat) (outer : List Extent) =>
      decide (held.InTurn outer) && decide (∃ mark, held.deed = .shields mark) &&
      held.dropsByUnwinding && !held.step.poisoned &&
      held.context.any
        (fun (context : Context) => context.inFlight.any fun (index : Nat) =>
        (context.records.get? index).isSome) &&
      ((follow (Machine.Within outer) 4 held.step (held.move.apply outer)).any
        fun (raising, opened) =>
          decide (raising.Within outer opened) && !raising.step.poisoned &&
          raising.raises?.any (fun (raised : Raised) =>
            decide (raised.origin = ⟨"main", 4, "undo"⟩)) &&
          (Resumption.nearest? raising.control).isSome &&
          (follow Machine.Straight 22 raising.step (raising.move.apply opened)).any
            fun (stopped, left) =>
              decide stopped.IsStopped && decide (stopped.Candid left)) &&
      ((follow (Machine.Within outer) 14 held.step (held.move.apply outer)).any
        fun (last, inner) =>
          decide (last.Within outer inner) && !last.step.poisoned &&
          decide ((last.move.apply inner).length = outer.length) &&
          (follow Machine.Straight 12 last.step (last.move.apply inner)).any
            fun (stopped, left) =>
              decide stopped.IsStopped && decide (stopped.Candid left)))
    (show (follow Machine.InTurn 14 (.start {} true none undoing)
      (Machine.start {} true none undoing).opened).any _ = true by decide +kernel)
  simp only [Bool.and_eq_true, decide_eq_true_eq, Bool.not_eq_true', Option.any_eq_true,
    Option.isSome_iff_exists, Prod.exists] at hTest
  obtain ⟨⟨⟨⟨⟨⟨hTurn, hBegins⟩, hDrops⟩, hGoesOn⟩, context, hContext, index, hIndex,
      record, hRecord⟩, raising, opened, hInside,
      ⟨⟨⟨hWithin, hRaised⟩, raised, hRaises, hOrigin⟩, region, hNearest⟩, stopped, left,
      hStraight, hStop⟩, last, inner, hBody, ⟨⟨hLast, hReturns⟩, hCloses⟩, ended, gone,
      hOn, hEnd⟩ := hTest
  obtain ⟨payload, code, hHolds⟩ := Machine.of_dropsByUnwinding hDrops
  have hShielded : Shielded held last outer inner :=
    ⟨hBegins, hTurn, hGoesOn, Reaches.start.follow hBody, hLast, hReturns, hCloses⟩
  obtain ⟨hRecovers, hResumes⟩ := raise_is_handled hReaches hTurn hBegins hHolds hGoesOn
  obtain ⟨m, ledger, hMet⟩ := (hRecovers raising opened raised region
    (Reaches.start.follow hInside) hWithin hRaises hRaised hNearest).met_of_follow
    ((Option.any_eq_true _ _).2 ⟨(stopped, left), hStraight, by simp [hStop]⟩)
  obtain ⟨after, _, hAfter, hKept⟩ := (hResumes last inner hShielded).met_of_follow
    ((Option.any_eq_true _ _).2 ⟨(ended, gone), hOn, by simp [hEnd]⟩)
  have hSends : held.Sends (record.toException context.frames).raised :=
    ⟨context, index, record, hContext, hIndex, hRecord, rfl⟩
  exact ⟨held, m, after, ledger, payload, region, raised, _, hOrigin, hMet, hSends,
    hAfter, hKept _ hSends⟩

/-- A raise that is deceived on its way does not come to its region: the explicit region
counts as abandoned, and with it goes the record that the raise needs.

The run closes everything in turn, and no raise is stopped in it. An explicit region
that is opened in code which an unwinding runs is enough. -/
theorem staleRegion_fails :
    ∃ m ledger,
      Reaches Machine.Orderly (.start {} true none staleRegion)
        (Machine.start {} true none staleRegion).opened m ledger ∧
        m.Orderly ledger ∧ m.step.poisoned = true ∧
        m.step.failure? = some (.corrupted (.noRecord ⟨"main", 3, "undo"⟩)) :=
  Reaches.fails_of_follow 28 (by decide +kernel)

end Unwinding
