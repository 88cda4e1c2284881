import Unwinding.Proofs.Arrivals
import Unwinding.Proofs.Handling

/-!
# The bookkeeping computes plain exceptions

Stacks of regions, marks, frames and records, an exception in flight and unwindings that
are stopped: all of it computes what plain code does. A run that closes in turn, in
which nothing foreign stops a raise, no escape is buried and no handle is mistaken about
its exit (`Machine.Plainly`), shows what the plain evaluator shows, and ends as that
does (`computes_plain`).

Every step keeps what the machine comes to (`Composed.reads_step`), so that a run comes
to the same in every state as at its start (`composed_of_reaches`), and that is what the
evaluator makes of the whole program (`reads_start`).

A scope that is created before a raise and dropped by a guard body that the raise runs
is mistaken: `adoptedScope_disagrees`.

## Main results

* `Composed.reads_step` — a step of a run of which plain code tells.
* `computes_plain` — the runs agree with the plain evaluator.
-/

namespace Unwinding

open Plain

variable {ν : Type}

/-! ## Steps -/

section

variable {m : Machine ν} {ledger : List Extent} {pile : Pile} {known : Lineage}
    {clock : Nat}
  {final : Except Thrown (Option ν) × Store ν}

private theorem Machine.reads_exec (h : Composed m ledger pile known)
    (hPlainly : m.Plainly ledger) (hGoesOn : m.step.poisoned = false) {stmt : Stmt ν}
    (hFocus : m.focus = .exec stmt)
    {follows : Except Thrown (Option (Option ν)) → Plain ν (Option ν)}
    (waits : Waits m.pend .statement clock m.travels m.control follows)
    (comes : (stmt.eval (runAt clock)).meet follows m.reading = final) :
    m.step.Reads clock final := by
  have hStep : m.step = m.exec stmt := by rw [step, hFocus]
  cases stmt with
  | depths => exact reads_answer hStep rfl waits comes
  | state => exact reads_answer hStep rfl waits comes
  | trace => exact reads_answer hStep rfl waits comes
  | current => exact reads_answer hStep rfl waits comes
  | printTrace => exact .of_same hStep rfl rfl rfl rfl (.complete rfl) waits comes
  | say text => exact reads_answer hStep rfl waits comes
  | annotate text => exact reads_annotate h hPlainly hGoesOn hFocus waits comes
  | value value => exact reads_done hStep waits comes
  | raise ref site message => exact reads_raise h hPlainly hGoesOn hFocus waits comes
  | panic text => exact reads_thrown hStep .panic waits comes
  | rethrow name => exact reads_rethrow hFocus waits comes
  | exception name => exact reads_exception hStep waits comes
  | exceptionIsA name ancestor => exact reads_exceptionIsA hStep waits comes
  | protect levels site mode clauses body =>
      change (valued _).meet follows m.reading = final at comes
      rw [valued_meet] at comes
      exact reads_protect h hPlainly hGoesOn hFocus waits.valued comes
  | block body => exact reads_block hStep waits comes
  | loop times body => exact reads_loop hStep waits comes
  | attempt body resume => exact reads_attempt hStep waits comes
  | acquire name opening times =>
      exact reads_acquire h hPlainly hGoesOn hFocus waits comes
  | release name how => exact reads_release h hPlainly hGoesOn hFocus waits comes
  | guard scope flavor body =>
      exact reads_register h hPlainly hGoesOn hFocus waits comes
  | inspect name => exact reads_inspect hFocus waits comes
  | configure config => exact reads_configure hFocus waits comes
  | declare entry => exact reads_declare hFocus waits comes
  | sealKinds => exact .of_same hStep rfl rfl rfl rfl (.complete rfl) waits comes
  | isA candidate ancestor => exact reads_answer hStep rfl waits comes
  | listKinds => exact reads_answer hStep rfl waits comes

/-- A machine comes to the same as before after every step. -/
theorem Composed.reads_step (h : Composed m ledger pile known)
    (hPlainly : m.Plainly ledger) (hGoesOn : m.step.poisoned = false)
    (hClock : m.weight ≤ clock) (reads : m.Reads clock final) :
    ∃ clock, m.step.weight ≤ clock ∧ m.step.Reads clock final := by
  cases reads with
  | returned hFocus outcome log =>
      have hStep : m.step = m := by rw [Machine.step, hFocus]
      rw [hStep]
      exact ⟨clock, hClock, .returned hFocus outcome log⟩
  | unwound hFocus isPayload outcome log =>
      have hStep : m.step = m := by rw [Machine.step, hFocus]
      rw [hStep]
      exact ⟨clock, hClock, .unwound hFocus isPayload outcome log⟩
  | runs means waits comes =>
      have hWeight := m.weight_step_lt means.running
      have hLess := Nat.le_trans (Nat.le_of_lt hWeight) hClock
      generalize hTravels : m.travels = travels at means
      cases means with
      | next hFocus =>
          exact ⟨clock, hLess, Machine.reads_next hFocus (hTravels ▸ waits) comes⟩
      | exec hFocus =>
          exact ⟨clock, hLess,
            Machine.reads_exec h hPlainly hGoesOn hFocus (hTravels ▸ waits) comes⟩
      | protect hFocus =>
          exact ⟨clock, hLess,
            Machine.reads_protect h hPlainly hGoesOn hFocus (hTravels ▸ waits) comes⟩
      | complete hFocus =>
          exact ⟨clock, hLess, Machine.reads_complete hFocus (hTravels ▸ waits) comes⟩
      | deliver hFocus =>
          exact Machine.reads_deliver h hPlainly hGoesOn hLess hFocus (hTravels ▸ waits)
            comes
      | unwind hFocus throws =>
          exact ⟨clock, hLess, Machine.reads_unwind h hPlainly hGoesOn hFocus hTravels
            throws waits comes⟩
      | offer hFocus =>
          exact ⟨clock, hLess,
            Machine.reads_offer h hPlainly hGoesOn hFocus (hTravels ▸ waits) comes⟩
      | leave hFocus =>
          exact ⟨clock, hLess,
            Machine.reads_leave h hPlainly hGoesOn hFocus (hTravels ▸ waits) comes⟩
      | forward hFocus =>
          exact ⟨clock, hLess,
            Machine.reads_forward h hPlainly hGoesOn hFocus (hTravels ▸ waits) comes⟩
      | drop hFocus isMarked =>
          exact ⟨clock, hLess,
            Machine.reads_drop h hPlainly hGoesOn hFocus isMarked (hTravels ▸ waits)
            comes⟩
      | leaveScope hFocus =>
          exact Machine.reads_leaveScope h hPlainly hGoesOn hWeight hClock hFocus
            (hTravels ▸ waits) comes
      | write hFocus =>
          exact ⟨clock, hLess,
            Machine.reads_write h hPlainly hGoesOn hFocus (hTravels ▸ waits) comes⟩

end

/-! ## Runs -/

section

variable {process : Process} {auto : Bool} {limits : Option Limits}
    {body : List (Stmt ν)}

/-- A thread whose body is about to run. -/
theorem reads_fresh {m : Machine ν} {clock : Nat} {store : Store ν}
    (hFocus : m.focus = .next)
    (hControl : m.control = [.block "" body [] none, .thread auto])
    (hFresh : ∀ entries, m.entries? = some entries → entries = .empty)
    (hReading : m.readingAs [] none m.sights =
      { store with blocks := [] :: store.blocks }) :
    m.Reads clock (block (runAt clock) (Stmt.evals (runAt clock) body none) store) := by
  have hNothing : m.travels = [none] ∧ m.path = [] := by
    cases hEntries : m.entries? with
    | none =>
        exact ⟨by rw [Machine.travels, hEntries], by rw [Machine.path, hEntries]; rfl⟩
    | some entries =>
        obtain rfl := hFresh entries hEntries
        exact ⟨Machine.travels_of_entries hEntries, Machine.path_of_entries hEntries⟩
  have hWaits : Waits m.pend .drop clock [none] [.block "" body [] none, .thread auto]
      _ := .running .thread allMarked_nil
  rw [← hNothing.1, ← hControl] at hWaits
  have hEscape : (bodies m.control).head?.bind m.pend = none := by
    rw [hControl]
    rfl
  refine .runs (.next hFocus) hWaits ?_
  rw [Machine.reading_eq hNothing.2 hEscape rfl, hReading]
  rfl

/-- At its start, a thread comes to what the evaluator makes of its body. -/
theorem reads_start (process : Process) (auto : Bool) (limits : Option Limits)
    (body : List (Stmt ν)) (clock : Nat) :
    (Machine.start process auto limits body).Reads clock
    (Plain.thread clock auto body process.store) := by
  cases auto with
  | false => exact reads_fresh rfl rfl (fun _ hEntries => nomatch hEntries) rfl
  | true =>
      obtain ⟨hFits, hOpen⟩ | ⟨-, hThere, -⟩ | ⟨hFits, -, context, hEmpty, hOpen⟩ :=
        openThread_cases
        ({ toProcess := process
           control := [.block "" body [] none, .thread true]
           focus := .next } : Machine ν) limits
      · rw [thread_overflowed clock body process.store hFits]
        simp only [Machine.start, if_true, hOpen]
        exact .runs (.unwind rfl .panic) (.arriving .bare) rfl
      · cases hThere
      · rw [thread_opened clock body process.store hFits rfl]
        simp only [Machine.start, if_true, hOpen]
        refine reads_fresh rfl rfl (fun entries hEntries => ?_) rfl
        cases hEntries
        exact hEmpty

/-- In every state of such a run all is known, and it comes to the same as at the
start. -/
theorem composed_of_reaches {m : Machine ν} {ledger : List Extent} {clock : Nat}
    (h : Reaches Machine.Plainly (.start process auto limits body)
      (Machine.start process auto limits body).opened m ledger)
    (hClock : (Machine.start process auto limits body).weight ≤ clock) :
    (∃ pile known, Composed m ledger pile known) ∧
      ∃ clock', m.weight ≤ clock' ∧
        m.Reads clock' (Plain.thread clock auto body process.store) := by
  induction h with
  | start =>
      exact ⟨⟨_, _, composed_start process auto limits body⟩, clock, hClock,
        reads_start process auto limits body clock⟩
  | step before isAllowed goesOn ih =>
      obtain ⟨⟨pile, known, hComposed⟩, deep, hDeep, hReads⟩ := ih
      exact ⟨⟨_, _, hComposed.step isAllowed goesOn⟩,
        hComposed.reads_step isAllowed goesOn hDeep hReads⟩

end

/-! ## Agreement -/

/-- How a thread stops by what has come of its code. -/
def Stop.Tells (stop : Stop ν) : Except Thrown (Option ν) → Prop
  | .ok value => ∃ shutdown, stop = .returned value shutdown
  | .error thrown => ∃ payload, thrown.payload? = some payload ∧ stop = .unwound payload

/-- A machine has shown what plain code shows at first, and if it has stopped, all of
it, and in the same way. -/
structure Machine.Agrees (m : Machine ν) (final : Except Thrown (Option ν) × Store ν) :
    Prop where
  shown : m.sights <:+ final.2.log
  stopped : ∀ stop, m.focus = .stopped stop → stop.Tells final.1 ∧
    final.2.log = m.sights

private theorem Machine.Reads.agrees {m : Machine ν} {clock : Nat}
    {final : Except Thrown (Option ν) × Store ν} (h : m.Reads clock final) :
    m.Agrees final := by
  refine ⟨h.shown, fun stop hStops => ?_⟩
  cases h with
  | runs means waits comes => exact absurd ⟨stop, hStops⟩ means.running
  | @returned value shutdown hFocus outcome log =>
      obtain rfl : stop = _ := Focus.stopped.inj (hStops.symm.trans hFocus)
      rw [outcome]
      exact ⟨⟨shutdown, rfl⟩, log⟩
  | @unwound payload thrown hFocus isPayload outcome log =>
      obtain rfl : stop = _ := Focus.stopped.inj (hStops.symm.trans hFocus)
      rw [outcome]
      exact ⟨⟨payload, isPayload, rfl⟩, log⟩

/-- The bookkeeping computes plain exceptions. A run that closes in turn, in which
nothing foreign stops a raise, no escape is buried and no handle is mistaken about its
exit, has shown in every state what the plain evaluator shows first, and if the thread
has stopped, the evaluator has ended in the same way and has shown nothing else.

What is shown is everything but the answers to questions about the bookkeeping itself.
The weight of the thread at its start bounds how deep its guard bodies can run inside
each other, so that a clock which is no smaller is enough for the evaluator. -/
theorem computes_plain {process : Process} {auto : Bool} {limits : Option Limits}
    {body : List (Stmt ν)} {m : Machine ν} {ledger : List Extent} {clock : Nat}
    (h : Reaches Machine.Plainly (.start process auto limits body)
      (Machine.start process auto limits body).opened m ledger)
    (hClock : (Machine.start process auto limits body).weight ≤ clock) :
    m.Agrees (Plain.thread clock auto body process.store) := by
  obtain ⟨-, deep, -, hReads⟩ := composed_of_reaches h hClock
  exact hReads.agrees

/-- What a thread has returned. -/
def Machine.result? (m : Machine ν) : Option (Option ν) :=
  match m.focus with
  | .stopped (.returned value _) => some value
  | _ => none

private theorem Machine.stopped_of_result? {m : Machine ν} {value : Option ν}
    (h : m.result? = some value) :
    ∃ shutdown, m.focus = .stopped (.returned value shutdown) := by
  unfold result? at h
  split at h
  · next hFocus =>
      cases h
      exact ⟨_, hFocus⟩
  · cases h

/-- An explicit region is abandoned; what is raised for it is handed on by a handler,
and runs a guard body on its way. -/
def handedOn : List (Stmt Nat) :=
  [.protect 1 ⟨"main", 1, "main"⟩ .run catchAll
    [.acquire "guard" (.guards ⟨"main", 2, "main"⟩) 1,
      .guard "guard" .failure [.say "rollback"],
      .protect 1 ⟨"main", 3, "main"⟩
      .run [.mk (.direct .illegalEscape) "first" [.rethrow "first"]]
        [.acquire "region" (.region ⟨"main", 4, "main"⟩) 1, .release "region" .drop]],
    .value 7]

/-- The evaluator tells all that `handedOn` shows. -/
theorem computes_plain_handedOn :
    ∃ m : Machine Nat, m.result? = some (some 7) ∧
      m.Agrees
        (Plain.thread (Machine.start {} true none handedOn).weight true handedOn
        ({} : Process).store) := by
  obtain ⟨m, ledger, hReaches, hTest⟩ :=
    Reaches.of_follow 55 (fun (m : Machine Nat) _ => decide (m.result? = some (some 7)))
      (show (follow Machine.Plainly 55 (.start {} true none handedOn)
        (Machine.start {} true none handedOn).opened).any _ = true by
        decide +kernel)
  exact ⟨m, of_decide_eq_true hTest, computes_plain hReaches (Nat.le_refl _)⟩

/-- A scope is created before a raise. A guard body that runs while the raise unwinds
registers the scope's first body, and drops the scope. -/
def adoptedScope : List (Stmt Nat) :=
  [.acquire "late" (.guards ⟨"main", 1, "main"⟩) 1,
    .protect 1 ⟨"main", 2, "main"⟩ .run catchAll
      [.acquire "outer" (.guards ⟨"main", 3, "main"⟩) 1,
        .guard "outer" .always
          [.guard "late" .failure [.say "rollback"], .release "late" .drop],
        .raise (.direct .illegalEscape) ⟨"main", 4, "main"⟩ []]]

/-- The condition on handles is needed. A scope that is created before a raise, gets its
first body in a guard body that the raise runs, and is dropped there by a statement,
runs its body for unwindings, although nothing unwinds it.

The program closes everything in turn, stops no raise and buries no escape. So no
condition on how handles are nested could take the place of the one that is missing
here. -/
theorem adoptedScope_disagrees :
    ∃ (m : Machine Nat) (ledger : List Extent),
      Reaches (fun m ledger => m.Strict ledger ∧ ¬ m.Buries ledger)
        (.start {} true none adoptedScope)
        (Machine.start {} true none adoptedScope).opened m ledger ∧
      ¬ m.Agrees
        (Plain.thread (Machine.start {} true none adoptedScope).weight true adoptedScope
        ({} : Process).store) := by
  obtain ⟨m, ledger, hReaches, hTest⟩ :=
    Reaches.of_follow 48
      (fun (m : Machine Nat) _ => decide (m.result? = some none) &&
        decide
        (m.sights.length ≠
        (Plain.thread (Machine.start {} true none adoptedScope).weight true adoptedScope
        ({} : Process).store).2.log.length))
      (show (follow (fun m ledger => m.Strict ledger ∧ ¬ m.Buries ledger)
        48 (.start {} true none adoptedScope)
        (Machine.start {} true none adoptedScope).opened).any _ = true by
        decide +kernel)
  rw [Bool.and_eq_true, decide_eq_true_eq, decide_eq_true_eq] at hTest
  obtain ⟨shutdown, hStops⟩ := Machine.stopped_of_result? hTest.1
  exact ⟨m, ledger, hReaches,
    fun hAgrees => hTest.2 (congrArg List.length (hAgrees.stopped _ hStops).2).symm⟩

end Unwinding
