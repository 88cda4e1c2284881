import Unwinding.Proofs.Extent

/-!
# Destructors of the program's own values

A program of the library says what becomes of its handles, but nothing of its other
values. Such a value may have a destructor, and an unwinding that drops the value runs
it there and then, with the exception still in flight. Only guard bodies are shielded
from that exception; a destructor is not.

`Unfolds` is a run in which the unwindings may come to destructors. Their code is
arbitrary, and so is the place: between any two steps of an unwinding. What a destructor
does is done by steps of the machine, as for all code. It goes back to the unwinding
when it has ended, and one that lets an unwinding of its own out ends the process, as in
the language.

## Main results

* `Reaches.unfolds` - a run without destructors is such a run.
* `Unfolds.of_follow` - a run with one destructor, followed to a state that passes a
  test.
-/

namespace Unwinding

variable {ν : Type}

namespace Machine

/-- An unwinding comes to a value of the program, and the destructor of the value runs.
The unwinding waits for it as it waits for a handle that it drops.

The machine has no destructors, because a program of the machine has no values of its
own that could have any. This is where they come in: any statements at all may be put in
the way of an unwinding. -/
def destruct (m : Machine ν) (payload : Payload) (body : List (Stmt ν)) : Machine ν :=
  (m.push (.unwinding payload)).enterBlock body

/-- Whether an unwinding goes on next. -/
def unwinds (m : Machine ν) (payload : Payload) : Bool :=
  match m.focus with
  | .unwind other => decide (other = payload)
  | _ => false

/-- A machine that passes the test is about to go on with that unwinding. -/
theorem focus_of_unwinds {m : Machine ν} {payload : Payload}
    (h : m.unwinds payload = true) :
    m.focus = .unwind payload := by
  unfold unwinds at h
  split at h
  · next hFocus => rw [hFocus, of_decide_eq_true h]
  · cases h

end Machine

/-- A run from a machine and a ledger to another, through steps that are all allowed and
none of which terminates the thread. An unwinding that `drops` allows may run
destructors.

The destructors are chosen freely at each step of an unwinding, and may run anything
that a program can run, as long as it keeps to the allowed steps. A law about such runs
holds for every choice of destructors. The parameter `drops` says during which
unwindings they may run, since the runtime protects itself against some and not against
others. -/
inductive Unfolds (allowed : Machine ν → List Extent → Prop) (drops : Payload → Prop)
    (start : Machine ν) (opened : List Extent) : Machine ν → List Extent → Prop where
  | start : Unfolds allowed drops start opened start opened
  | step {m : Machine ν} {ledger : List Extent}
      (before : Unfolds allowed drops start opened m ledger)
      (isAllowed : allowed m ledger) (goesOn : m.step.poisoned = false) :
      Unfolds allowed drops start opened m.step (m.move.apply ledger)
  | destructs {m : Machine ν} {ledger : List Extent} {payload : Payload}
      (before : Unfolds allowed drops start opened m ledger)
      (unwinds : m.focus = .unwind payload) (isDropping : drops payload)
      (body : List (Stmt ν)) :
      Unfolds allowed drops start opened (m.destruct payload body) ledger

section

variable {allowed : Machine ν → List Extent → Prop} {drops : Payload → Prop}
  {start m : Machine ν} {opened ledger : List Extent}

/-- A run in which no destructor uses the runtime. -/
theorem Reaches.unfolds (h : Reaches allowed start opened m ledger) :
    Unfolds allowed drops start opened m ledger := by
  induction h with
  | start => exact .start
  | step before isAllowed goesOn ih => exact .step ih isAllowed goesOn

namespace Unfolds

/-- A run that goes on. -/
theorem trans {middle : Machine ν} {between : List Extent}
    (h : Unfolds allowed drops start opened middle between)
    (hLater : Unfolds allowed drops middle between m ledger) :
    Unfolds allowed drops start opened m ledger := by
  induction hLater with
  | start => exact h
  | step before isAllowed goesOn ih => exact .step ih isAllowed goesOn
  | destructs before unwinds isDropping body ih =>
      exact .destructs ih unwinds isDropping body

variable [∀ m ledger, Decidable (allowed m ledger)]

/-- A run that is followed up to an unwinding, and through the code of a destructor that
the unwinding runs there, to a state that passes a test. -/
theorem of_follow (drops : Payload → Prop) (payload : Payload) (hDrops : drops payload)
    (count later : Nat) (body : List (Stmt ν)) (test : Machine ν → List Extent → Bool)
    (h : (follow allowed count start opened).any
      (fun state => state.1.unwinds payload &&
      (follow allowed later (state.1.destruct payload body) state.2).any fun state =>
        test state.1 state.2) = true) :
    ∃ m ledger, Unfolds allowed drops start opened m ledger ∧ test m ledger = true := by
  obtain ⟨m, ledger, hReaches, hTest⟩ := Reaches.of_follow count
    (fun m ledger => m.unwinds payload &&
      (follow allowed later (m.destruct payload body) ledger).any fun state =>
        test state.1 state.2) h
  rw [Bool.and_eq_true] at hTest
  obtain ⟨after, left, hLater, hPasses⟩ := Reaches.of_follow later test hTest.2
  have hUnwinds := Machine.focus_of_unwinds hTest.1
  exact ⟨after, left,
    (destructs hReaches.unfolds hUnwinds hDrops body).trans hLater.unfolds, hPasses⟩

end Unfolds

end

end Unwinding
