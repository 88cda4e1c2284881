import Unwinding.Proofs.Restoration

/-!
# Closing

In a strict run whatever a step closes, its bookkeeping succeeds: a region that is left,
normally or by an unwinding, a traced call, a guard scope, a guard body and the thread
itself find on the stacks what they put there. `lands_step` says less, because it allows
a step to fail for any reason that the program brought about, and a full stack is one of
them.

## Main results

* `Sound.closed_step` — closing fails only while a message is being written, or where an
  explicit region is abandoned that no region reports.
* `Sound.closed_offer` — nor does the mark fail that is taken off before a handler
  begins.
-/

namespace Unwinding

open Context

variable {ν : Type}

/-! ## What closing may fail for -/

/-- What may go wrong when something is closed: a message is being written, or an
explicit region is abandoned where no region reports it. -/
inductive ClosingFailure : Error → Prop
  | reentered : ClosingFailure (.corrupted .reentered)
  | unreported (site : Site) : ClosingFailure (.corrupted (.escapeUnreported site))

/-- A machine is not terminated, or for a reason that closing may have. -/
def Machine.Closed (m : Machine ν) : Prop :=
  m.poisoned = true → ∃ error, m.failure? = some error ∧ ClosingFailure error

namespace Machine

/-- A machine that was not terminated has closed whatever it closed. -/
theorem closed_of_clear {m : Machine ν} (h : m.poisoned = false) : m.Closed :=
  fun hPoisoned => by cases h.symm.trans hPoisoned

private theorem closed_perform {α : Type} {m : Machine ν} {step : Step α}
    {next : Machine ν → α → Machine ν} {context : Context}
    {answers : α → Context → Prop} {fails : Error → Prop}
    (hContext : m.context = some context) (hEnds : Ends (step context) answers fails)
    (hFails : ∀ error, fails error → ClosingFailure error)
    (hNext : ∀ after answer, (next (m.store after) answer).poisoned = false) :
    (m.perform step next).Closed := by
  intro hPoisoned
  unfold perform at hPoisoned ⊢
  split
  · exact ⟨_, failure?_fatal _ _ _, .reentered⟩
  · next hUse =>
      rw [if_neg hUse] at hPoisoned
      simp only [hContext] at hPoisoned ⊢
      cases hOutcome : step context with
      | ok answer after =>
          rw [hOutcome] at hPoisoned
          cases (hNext after answer).symm.trans hPoisoned
      | error error after =>
          rw [hOutcome] at hEnds
          exact ⟨error, failure?_fatal _ _ _, hFails error hEnds⟩

/-- A step on a context that is there and not in use, and in which the step cannot fail,
is answered. -/
theorem perform_answers {α : Type} {m : Machine ν} {step : Step α} {context : Context}
    {answers : α → Context → Prop} (next : Machine ν → α → Machine ν)
    (hContext : m.context = some context) (hFree : m.inUse = false)
    (hEnds : Ends (step context) answers fun _ => False) :
    ∃ answer after, step context = .ok answer after ∧ answers answer after ∧
      m.perform step next = next (m.store after) answer := by
  obtain ⟨answer, after, hOk, hAnswer⟩ := hEnds.answer
  refine ⟨answer, after, hOk, hAnswer, ?_⟩
  unfold perform
  rw [if_neg (by simp [hFree])]
  simp only [hContext, hOk]

end Machine

/-! ## What is closed is there -/

namespace Sound

variable {base : Shape} {floor : Nat} {m : Machine ν} {ledger : List Extent}
    {flying : Bool} {parked : List Bool}

private theorem closed_release {name : String} {how : Closing}
    (h : Sound base floor True m ledger flying parked) (hTurn : m.InTurn ledger)
    (hFocus : m.focus = .exec (.release name how)) : (m.release name how).Closed := by
  have hHead := hTurn.closing
  simp only [Machine.closing?, hFocus] at hHead
  unfold Machine.release
  cases hTake : Handle.take? name m.control with
  | none => exact Machine.closed_of_clear h.clear
  | some taken =>
      obtain ⟨handle, control⟩ := taken
      rw [hTake] at hHead
      cases how with
      | drop => cases handle <;> exact Machine.closed_of_clear h.clear
      | forget => cases handle <;> exact Machine.closed_of_clear h.clear
      | leave =>
          cases handle with
          | region visit inUnwinding =>
              obtain ⟨rest, rfl⟩ := List.head?_eq_some_iff.1 (hHead _ rfl)
              obtain rfl := h.landed (by rw [hFocus]; rfl)
              obtain ⟨context, books, hContext, hKeeps⟩ := h.accounts
              exact Machine.closed_perform (m := { m with control }) hContext
                (keeps_leave_region hKeeps fun hFlying =>
                  absurd hFlying Bool.false_ne_true) (fun _ => False.elim)
                    fun _ _ => h.clear
          | _ => exact Machine.closed_of_clear h.clear
      | shutdown =>
          cases handle with
          | thread =>
              exact Machine.closed_of_clear
                (Machine.closeThread_clear (m := { m with control }) h.clear).1
          | _ => exact Machine.closed_of_clear h.clear

private theorem closed_drop {handle : Handle ν}
    (h : Sound base floor True m ledger flying parked) (hTurn : m.InTurn ledger)
    (hStale : ¬ m.LeavesStale) (hFocus : m.focus = .drop handle) :
    (m.drop handle).Closed := by
  have hHead (extent : Extent) (hExtent : handle.extent? = some extent) :
      ledger.head? = some extent :=
    hTurn.closing extent (by rw [Machine.closing?, hFocus]; exact hExtent)
  cases handle with
  | thread => exact Machine.closed_of_clear (Machine.dropThread_clear h.clear).1
  | region visit inUnwinding =>
      obtain ⟨rest, rfl⟩ := List.head?_eq_some_iff.1 (hHead _ rfl)
      obtain ⟨context, books, hContext, hKeeps⟩ := h.accounts
      simp only [Machine.drop, h.clear, Bool.false_eq_true, if_false]
      split
      · exact Machine.closed_perform hContext (keeps_leave_region hKeeps fun _ => rfl)
          (fun _ => False.elim) fun _ _ => h.clear
      · exact Machine.closed_perform hContext (keeps_abandon hKeeps)
          (fun _ hError => hError ▸ .unreported _)
          fun _ _ => h.clear
  | call entry inUnwinding =>
      obtain ⟨rest, rfl⟩ := List.head?_eq_some_iff.1 (hHead _ rfl)
      obtain ⟨context, books, hContext, hKeeps⟩ := h.accounts
      simp only [Machine.drop, h.clear, Bool.false_eq_true, if_false]
      refine Machine.closed_perform hContext (keeps_leaveCall hKeeps)
        (fun _ hError => ?_) fun _ _ => h.clear
      obtain ⟨hNot, rfl⟩ := hError
      obtain ⟨hPanicking, hOld⟩ := h.dropped_by_raise hFocus hStale
      simp [Handle.inUnwinding] at hOld
      simp [hPanicking, hOld] at hNot
  | guards scope =>
      simp only [Machine.drop, h.clear, Bool.false_eq_true, if_false]
      split <;> exact Machine.closed_of_clear h.clear

private theorem closed_leaveScope {scope : Leaving ν}
    (h : Sound base floor True m ledger flying parked)
    (hFocus : m.focus = .leaveScope scope) (hMove : m.move = .closes) :
    (m.leaveScope scope).Closed := by
  have hPoised := h.poised
  rw [hFocus] at hPoised
  obtain ⟨rest, rfl⟩ := hPoised
  simp only [Machine.move, hFocus] at hMove
  unfold Machine.leaveScope
  cases hBodies : scope.bodies with
  | nil =>
      obtain ⟨context, books, hContext, hKeeps⟩ := h.accounts
      exact Machine.closed_perform hContext (keeps_closeScope hKeeps)
        (fun _ => False.elim) fun _ _ => h.clear
  | cons registered bodies =>
      rw [hBodies] at hMove
      dsimp only at hMove
      split at hMove <;> cases hMove

private theorem closed_deliver {value : Option ν}
    (h : Sound base floor True m ledger flying parked) (hTurn : m.InTurn ledger)
    (hFocus : m.focus = .deliver value) (hMove : m.move = .closes) :
    (m.deliver value).Closed := by
  obtain rfl := h.landed (by rw [hFocus]; rfl)
  have hHead := hTurn.closing
  simp only [Machine.closing?, hFocus] at hHead
  simp only [Machine.move, hFocus] at hMove
  unfold Machine.deliver
  cases hControl : m.control with
  | nil =>
      rw [hControl] at hMove
      cases hMove
  | cons waiting below =>
      rw [hControl] at hMove hHead
      cases waiting with
      | body region =>
          refine absurd hMove (Machine.after_ne_closes fun answer => ?_)
          cases answer <;> simp
      | guarding scope =>
          obtain ⟨rest, rfl⟩ := List.head?_eq_some_iff.1 (hHead _ rfl)
          obtain ⟨context, books, hContext, hKeeps⟩ := h.accounts
          exact Machine.closed_perform (m := { m with control := below })
            hContext (keeps_popShield hKeeps) (fun _ => False.elim) fun _ _ => h.clear
      | thread auto =>
          cases auto with
          | false => cases hMove
          | true =>
              exact Machine.closed_of_clear
                (Machine.closeThread_clear (m := { m with control := below }) h.clear).1
      | _ => cases hMove

/-- An unwinding that leaves the innermost protected region, whose code has been taken
off the waiting code. -/
theorem closed_passThrough {popped : Machine ν} {region : Protected ν}
    {payload : Payload} {phase : Phase} {rest : List Extent}
    (h : Sound base floor True m (.protecting region.visit phase :: rest) flying parked)
    (hSame : popped.context = m.context) (hClear : popped.poisoned = false) :
    (popped.passThrough region payload).Closed := by
  obtain ⟨context, books, hContext, hKeeps⟩ := h.accounts
  unfold Machine.passThrough
  rw [if_neg (by simp [hClear])]
  exact Machine.closed_perform (hSame.trans hContext)
    (keeps_leave_protecting hKeeps fun _ => rfl) (fun _ => False.elim)
    fun _ _ => hClear

private theorem closed_propagate {payload : Payload}
    (h : Sound base floor True m ledger flying parked) (hTurn : m.InTurn ledger)
    (hFocus : m.focus = .unwind payload) (hMove : m.move = .closes) :
    (m.propagate payload).Closed := by
  have hHead := hTurn.closing
  have hHandler := hTurn.handler
  simp only [Machine.closing?, Machine.endsHandler?, hFocus] at hHead hHandler
  simp only [Machine.move, hFocus] at hMove
  unfold Machine.propagate
  cases hControl : m.control with
  | nil =>
      rw [hControl] at hMove
      cases hMove
  | cons waiting below =>
      rw [hControl] at hMove hHead hHandler
      cases waiting with
      | body region =>
          obtain ⟨rest, rfl⟩ := List.head?_eq_some_iff.1 (hHead _ rfl)
          cases payload with
          | raise => exact absurd hMove (Machine.after_ne_closes (by simp))
          | panic text => exact h.closed_passThrough rfl h.clear
          | termination termination => exact h.closed_passThrough rfl h.clear
      | handler region =>
          obtain ⟨caught, hTop⟩ := hHandler _ rfl
          obtain ⟨rest, rfl⟩ := List.head?_eq_some_iff.1 hTop
          exact h.closed_passThrough rfl h.clear
      | thread auto =>
          cases auto with
          | false => cases hMove
          | true =>
              exact Machine.closed_of_clear
                (Machine.dropThread_clear (m := { m with control := below }) h.clear).1
      | _ => cases hMove

private theorem closed_leave {region : Protected ν}
    {outcome : Except Exception (Option ν)}
    (h : Sound base floor True m ledger flying parked)
    (hFocus : m.focus = .leave region outcome) :
    (m.leave region outcome).Closed := by
  obtain rfl := h.landed (by rw [hFocus]; rfl)
  have hPoised := h.poised
  rw [hFocus] at hPoised
  obtain ⟨phase, rest, rfl⟩ := hPoised
  obtain ⟨context, books, hContext, hKeeps⟩ := h.accounts
  refine Machine.closed_perform hContext
    (keeps_leave_protecting hKeeps fun hFlying => absurd hFlying Bool.false_ne_true)
    (fun _ => False.elim) fun _ _ => ?_
  cases outcome with
  | ok value => cases region.mode <;> exact h.clear
  | error exception => cases region.mode <;> exact h.clear

/-- Before a handler begins, the dispatch mark of its region is found where it was
put. -/
theorem closed_offer {region : Protected ν} {exception : Exception}
    (h : Sound base floor True m ledger flying parked)
    (hFocus : m.focus = .offer region exception) :
    m.step.Closed := by
  have hPoised := h.poised
  rw [hFocus] at hPoised
  obtain ⟨rest, rfl⟩ := hPoised
  obtain ⟨context, books, hContext, hKeeps⟩ := h.accounts
  have hStep : m.step = m.offer region exception := by simp only [Machine.step, hFocus]
  rw [hStep]
  unfold Machine.offer
  dsimp only
  split
  · exact Machine.closed_of_clear h.clear
  · exact Machine.closed_perform hContext (keeps_beginHandling hKeeps)
      (fun _ => False.elim) fun _ _ => h.clear

/-- In a strict run, closing fails only while a message is being written, or where an
explicit region is abandoned that no region reports. -/
theorem closed_step (h : Sound base floor True m ledger flying parked)
    (hStrict : m.Strict ledger) (hMove : m.move = .closes) : m.step.Closed := by
  have hTurn := hStrict.1.1
  unfold Machine.step
  cases hFocus : m.focus with
  | exec stmt =>
      obtain ⟨name, how, rfl⟩ := Machine.release_of_closes hFocus hMove
      exact h.closed_release hTurn hFocus
  | deliver value => exact h.closed_deliver hTurn hFocus hMove
  | unwind payload => exact h.closed_propagate hTurn hFocus hMove
  | leave region outcome => exact h.closed_leave hFocus
  | drop handle => exact h.closed_drop hTurn hStrict.2 hFocus
  | leaveScope scope => exact h.closed_leaveScope hFocus hMove
  | offer region exception =>
      simp only [Machine.move, hFocus] at hMove
      split at hMove <;> cases hMove
  | _ => simp [Machine.move, hFocus] at hMove

end Sound

end Unwinding
