import Mathlib.Logic.Relation
import Unwinding.Proofs.Deeds
import Unwinding.Proofs.Destructors

/-!
# Code that a region calls while it tries its clauses

A region that has an exception in hand tries its clauses in order, and calls code of the
program to do so. A clause may look up its kind by code of its own. What the handlers
that are not chosen have captured is dropped, and so is the value of a body that has
returned, if the region reports an escape. The region is matching all the while.

The machine tries the clauses in one step. Here they may be tried one by one, and code
of the program may run before each of them and before the handler begins. Such code is
an `Inquiry`. It may call further ones by regions of its own, so a `Situation` is a
machine with those that have not ended. The code itself is arbitrary, and what it does
is done by steps of the machine.

An inquiry that has ended gives the region back its clauses. One that lets an unwinding
out is unwound, and the region is left.

## Main results

* `Unfolds.consults` — a run in which no region calls such code is a run of situations.
* `Consults.of_follow` — a run with one inquiry, followed to a state that passes a test.
-/

namespace Unwinding

open Context

variable {ν : Type}

/-! ## Situations -/

namespace Machine

/-- Code of the program runs while the clauses of a region are tried. The code that
waits for the region waits for it too. -/
def interject (m : Machine ν) (code : List (Stmt ν)) : Machine ν :=
  m.enterBlock code

end Machine

/-- Code that a region has called while it tries its clauses, and how much code waits
beneath it. -/
structure Inquiry (ν : Type) where
  region : Protected ν
  exception : Exception
  depth : Nat

/-- Code that a machine is about to run for a region lies on all the code that waits. -/
def Machine.inquiry (m : Machine ν) (region : Protected ν) (exception : Exception) :
    Inquiry ν :=
  ⟨region, exception, m.control.length⟩

/-- A machine in a run, its ledger, and the inquiries that have not ended, innermost
first. -/
structure Situation (ν : Type) where
  machine : Machine ν
  ledger : List Extent
  inquiries : List (Inquiry ν)

/-- The machine runs code of the innermost inquiry, if there is one. -/
def Situation.Inside (situation : Situation ν) : Prop :=
  ∀ inquiry ∈ situation.inquiries.head?,
    inquiry.depth < situation.machine.control.length

instance Situation.decidableInside (situation : Situation ν) :
    Decidable situation.Inside :=
  inferInstanceAs (Decidable (∀ inquiry ∈ situation.inquiries.head?,
    inquiry.depth < situation.machine.control.length))

/-- The code of an inquiry has ended, and everything that was opened in it is closed. -/
structure Inquiry.Ends (inquiry : Inquiry ν) (m : Machine ν) (ledger : List Extent) :
    Prop where
  isOver : m.control.length ≤ inquiry.depth
  isInTurn : ledger.head? =
    some (.protecting inquiry.region.visit (.clauses inquiry.exception))

instance Inquiry.decidableEnds (inquiry : Inquiry ν) (m : Machine ν)
    (ledger : List Extent) : Decidable (inquiry.Ends m ledger) :=
  decidable_of_iff (m.control.length ≤ inquiry.depth ∧ ledger.head? =
      some (.protecting inquiry.region.visit (.clauses inquiry.exception)))
    ⟨fun h => ⟨h.1, h.2⟩, fun h => ⟨h.isOver, h.isInTurn⟩⟩

/-- A situation comes from another by a deed. The steps of the machine are those that
are allowed, and destructors run in unwindings that `drops` allows. -/
inductive Onward (allowed : Machine ν → List Extent → Prop) (drops : Payload → Prop) :
    Situation ν → Deed → Situation ν → Prop where
  /-- The machine makes a step. -/
  | step {m : Machine ν} {ledger : List Extent} {inquiries : List (Inquiry ν)}
      (isAllowed : allowed m ledger) (goesOn : m.step.poisoned = false)
      (isInside : Situation.Inside ⟨m, ledger, inquiries⟩) :
      Onward allowed drops ⟨m, ledger, inquiries⟩ m.deed
        ⟨m.step, m.move.apply ledger, inquiries⟩
  /-- An unwinding comes to a destructor. -/
  | destructs {m : Machine ν} {ledger : List Extent} {inquiries : List (Inquiry ν)}
      {payload : Payload} (unwinds : m.focus = .unwind payload)
      (isDropping : drops payload) (body : List (Stmt ν)) :
      Onward allowed drops ⟨m, ledger, inquiries⟩ .rests
        ⟨m.destruct payload body, ledger, inquiries⟩
  /-- The first clause that is left does not fit. -/
  | passes {m : Machine ν} {ledger : List Extent} {inquiries : List (Inquiry ν)}
      {region : Protected ν} {exception : Exception} {clause : Clause ν}
      {clauses : List (Clause ν)} (offers : m.focus = .offer region exception)
      (isFirst : region.clauses = clause :: clauses)
      (isUnfit : m.registry.fits exception.kind clause.kind = false) :
      Onward allowed drops ⟨m, ledger, inquiries⟩ .rests
        ⟨m.goto (.offer { region with clauses } exception), ledger, inquiries⟩
  /-- The region calls code of the program. -/
  | asks {m : Machine ν} {ledger : List Extent} {inquiries : List (Inquiry ν)}
      {region : Protected ν} {exception : Exception}
      (offers : m.focus = .offer region exception) (code : List (Stmt ν)) :
      Onward allowed drops ⟨m, ledger, inquiries⟩ .rests
        ⟨m.interject code, ledger, m.inquiry region exception :: inquiries⟩
  /-- The code has returned, and the region goes on with its clauses. -/
  | answers {m : Machine ν} {ledger : List Extent} {inquiry : Inquiry ν}
      {inquiries : List (Inquiry ν)} {value : Option ν}
      (delivers : m.focus = .deliver value)
      (ends : inquiry.Ends m ledger) :
      Onward allowed drops ⟨m, ledger, inquiry :: inquiries⟩ .rests
        ⟨m.goto (.offer inquiry.region inquiry.exception), ledger, inquiries⟩
  /-- The code lets an unwinding out, which passes the region. -/
  | leaves {m : Machine ν} {ledger : List Extent} {inquiry : Inquiry ν}
      {inquiries : List (Inquiry ν)} {payload : Payload}
      (unwinds : m.focus = .unwind payload)
      (ends : inquiry.Ends m ledger)
      (goesOn : (m.passThrough inquiry.region payload).poisoned = false) :
      Onward allowed drops ⟨m, ledger, inquiry :: inquiries⟩
        (.leaves inquiry.region.visit true .nothing)
        ⟨m.passThrough inquiry.region payload, ledger.tail, inquiries⟩

/-- What comes next in a situation terminates the thread with an error. -/
inductive Situation.Fails (allowed : Machine ν → List Extent → Prop) (error : Error) :
    Situation ν → Prop where
  | step {m : Machine ν} {ledger : List Extent} {inquiries : List (Inquiry ν)}
      (isAllowed : allowed m ledger)
      (isInside : Situation.Inside ⟨m, ledger, inquiries⟩)
      (stops : m.step.poisoned = true) (fails : m.step.failure? = some error) :
      Fails allowed error ⟨m, ledger, inquiries⟩
  | leaves {m : Machine ν} {ledger : List Extent} {inquiry : Inquiry ν}
      {inquiries : List (Inquiry ν)} {payload : Payload}
      (unwinds : m.focus = .unwind payload) (ends : inquiry.Ends m ledger)
      (stops : (m.passThrough inquiry.region payload).poisoned = true)
      (fails : (m.passThrough inquiry.region payload).failure? = some error) :
      Fails allowed error ⟨m, ledger, inquiry :: inquiries⟩

/-- A run from a situation to another. The steps of its machines are all allowed, and
none of them terminates the thread. Inquiries may do anything, and so may the
destructors that run. -/
def Consults (allowed : Machine ν → List Extent → Prop) (drops : Payload → Prop) :
    Situation ν → Situation ν → Prop :=
  Relation.ReflTransGen fun before after =>
    ∃ deed, Onward allowed drops before deed after

/-- A run on the way of which something lies on the ledger above what is found there. -/
def ConsultsAbove (outer : List Extent) (allowed : Machine ν → List Extent → Prop)
    (drops : Payload → Prop) : Situation ν → Situation ν → Prop :=
  Relation.ReflTransGen fun before after =>
    outer.length < before.ledger.length ∧ ∃ deed, Onward allowed drops before deed after

/-- The situation in which a program starts. -/
def Situation.start (process : Process) (auto : Bool) (limits : Option Limits)
    (body : List (Stmt ν)) : Situation ν :=
  ⟨.start process auto limits body, (Machine.start process auto limits body).opened, []⟩

section

variable {allowed : Machine ν → List Extent → Prop} {drops : Payload → Prop}
  {start m : Machine ν} {opened ledger : List Extent}

/-- A run in which no region calls code while it tries its clauses. -/
theorem Unfolds.consults (h : Unfolds allowed drops start opened m ledger) :
    Consults allowed drops ⟨start, opened, []⟩ ⟨m, ledger, []⟩ := by
  induction h with
  | start => exact .refl
  | step before isAllowed goesOn ih =>
      exact ih.tail ⟨_, .step isAllowed goesOn fun _ hNone => by cases hNone⟩
  | destructs before unwinds isDropping body ih =>
      exact ih.tail ⟨_, .destructs unwinds isDropping body⟩

/-- A run of the machine in the code of an inquiry. -/
theorem Reaches.inside {inquiries : List (Inquiry ν)}
    (h : Reaches (fun m ledger => allowed m ledger ∧
      Situation.Inside ⟨m, ledger, inquiries⟩) start opened m ledger) :
    Consults allowed drops ⟨start, opened, inquiries⟩ ⟨m, ledger, inquiries⟩ := by
  induction h with
  | start => exact .refl
  | step before isAllowed goesOn ih =>
      exact ih.tail ⟨_, .step isAllowed.1 goesOn isAllowed.2⟩

/-- A run of the machine in which something stays open. -/
theorem Reaches.above {outer : List Extent}
    (h : Reaches (fun m ledger => allowed m ledger ∧ outer.length < ledger.length)
      start opened m ledger) :
    ConsultsAbove outer allowed drops ⟨start, opened, []⟩ ⟨m, ledger, []⟩ := by
  induction h with
  | start => exact .refl
  | step before isAllowed goesOn ih =>
      exact ih.tail ⟨isAllowed.2, _,
        .step isAllowed.1 goesOn fun _ hNone => by cases hNone⟩

end

/-- The region whose clauses are tried next, and the exception that it has in hand. -/
def Machine.offers? (m : Machine ν) : Option (Protected ν × Exception) :=
  match m.focus with
  | .offer region exception => some (region, exception)
  | _ => none

private theorem Machine.focus_of_offers? {m : Machine ν} {region : Protected ν}
    {exception : Exception} (h : m.offers? = some (region, exception)) :
    m.focus = .offer region exception := by
  unfold offers? at h
  split at h
  · next hFocus =>
      cases h
      exact hFocus
  · cases h

/-- A run that is followed up to where the clauses of a region are tried, and into code
that the region calls there, to a state that passes a test. -/
theorem Consults.of_follow {allowed : Machine ν → List Extent → Prop}
    [∀ m ledger, Decidable (allowed m ledger)] {start : Machine ν}
    {opened : List Extent} (drops : Payload → Prop) (count inside : Nat)
    (code : List (Stmt ν))
    (test : Inquiry ν → Machine ν → List Extent → Bool)
    (h : (follow allowed count start opened).any (fun before =>
      before.1.offers?.any fun offered =>
        let inquiry := before.1.inquiry offered.1 offered.2
        (follow (fun m ledger => allowed m ledger ∧
            Situation.Inside ⟨m, ledger, [inquiry]⟩) inside
          (before.1.interject code) before.2).any fun after =>
            test inquiry after.1 after.2) = true) :
    ∃ inquiry m ledger,
      Consults allowed drops ⟨start, opened, []⟩ ⟨m, ledger, [inquiry]⟩ ∧
        test inquiry m ledger = true := by
  obtain ⟨before, held, hBefore, hOffers⟩ := Reaches.of_follow count
    (fun before ledger => before.offers?.any fun offered =>
      let inquiry := before.inquiry offered.1 offered.2
      (follow (fun m ledger => allowed m ledger ∧
          Situation.Inside ⟨m, ledger, [inquiry]⟩) inside
        (before.interject code) ledger).any fun after =>
          test inquiry after.1 after.2) h
  obtain ⟨⟨region, exception⟩, hSome, hInside⟩ := (Option.any_eq_true _ _).1 hOffers
  obtain ⟨m, ledger, hAfter, hTest⟩ := Reaches.of_follow inside
    (test (before.inquiry region exception)) hInside
  have hOffered : Consults allowed drops ⟨start, opened, []⟩ ⟨before, held, []⟩ :=
    hBefore.unfolds.consults
  have hAsks := hOffered.tail ⟨_, .asks (Machine.focus_of_offers? hSome) code⟩
  exact ⟨_, m, ledger, hAsks.trans hAfter.inside, hTest⟩

end Unwinding
