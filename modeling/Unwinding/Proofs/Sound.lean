import Unwinding.Proofs.Flow
import Unwinding.Proofs.Layout

/-!
# A step keeps the books in order

`Sound` relates a machine to the ledger of its run: the context holds what the ledger
accounts for, the exceptions on their way fit the code that waits, and what the machine
is in the middle of is the innermost extent. `lands_step` is the one law about a step:
from a sound machine a step that closes in turn leads to a sound machine, or terminates
the thread; and in a strict run it terminates the thread only for a reason that the
program brought about (`Excused`).

The steps are taken in the order in which the machine defines them. Each law reads off
the ledger what the operation on the context finds, and leaves the rest to the law of
that operation.
-/

namespace Unwinding

open Context

variable {ν : Type}

/-! ## Failures -/

/-- The error that the thread was terminated with by the last step. -/
def Machine.failure? (m : Machine ν) : Option Error :=
  match m.events with
  | .notice (.fatal error) :: _ => some error
  | .terminated _ :: .notice (.fatal error) :: _ => some error
  | _ => none

/-- A failure that a program brings about itself: there was no room, no context or no
kind, code that wrote a message used the runtime, an explicit region was abandoned where
no region reports it, or a guard body raised or panicked.

These are the failures that a correct program can bring about by what it asks for, and
that no bookkeeping could avoid. All others would mean that the stacks contradict what a
handle remembers. -/
inductive Excused : Error → Prop
  | outside {error : Error} (h : ¬ Contradicted error) : Excused error
  | reentered : Excused (.corrupted .reentered)
  | unreported (site : Site) : Excused (.corrupted (.escapeUnreported site))
  | guardBody (site : Site) (reason : String) :
      Excused (.corrupted (.guardBodyFailed site reason))

private theorem NoRoom.excused {error : Error} (h : NoRoom error) : Excused error :=
  .outside h.not_contradicted

private theorem excused_contextMissing : Excused .contextMissing :=
  .outside (by rintro (⟨_, h⟩ | ⟨_, h⟩) <;> cases h)

namespace Machine

/-- A termination poisons the machine. -/
theorem poisoned_terminate (m : Machine ν) (termination : Termination) :
    (m.terminate termination).poisoned = true := by
  unfold terminate installed
  cases m.config with
  | none => rfl
  | some config =>
      dsimp only
      cases config.terminator <;> dsimp only
      · split <;> rfl
      · rfl
      · rfl
      · rfl

private theorem events_terminate (m : Machine ν) (termination : Termination) :
    (m.terminate termination).events = m.events ∨
      (m.terminate termination).events = .terminated termination :: m.events := by
  unfold terminate installed
  cases m.config with
  | none => exact .inl rfl
  | some config =>
      dsimp only
      cases config.terminator <;> dsimp only
      · split <;> exact .inr rfl
      · exact .inr rfl
      · exact .inr rfl
      · exact .inl rfl

/-- A failure of the runtime is the one that terminated the thread. -/
theorem failure?_fatal (m : Machine ν) (error : Error) (dump : Option String) :
    (m.fatal error dump).failure? = some error := by
  unfold fatal failure?
  obtain h | h := events_terminate (m.note (.fatal error)) _ <;> rw [h] <;> rfl

/-- An exception that nobody caught is no failure of the runtime. -/
theorem failure?_uncaught (m : Machine ν) (exception : Exception) :
    (m.uncaught exception).failure? = none := by
  unfold uncaught failure?
  obtain h | h :=
    events_terminate (m.note (.uncaught (exception.text m.registry.table))) _ <;>
    rw [h] <;> rfl

/-- A step on the context that does not terminate the thread has answered. -/
theorem perform_goesOn {α : Type} {m : Machine ν} {step : Step α}
    {next : Machine ν → α → Machine ν} (h : (m.perform step next).poisoned = false) :
    ∃ context answer after, m.context = some context ∧ step context = .ok answer after ∧
      m.perform step next = next (m.store after) answer := by
  have fatal_absurd (m : Machine ν) (error : Error) (dump : Option String)
      (hFatal : (m.fatal error dump).poisoned = false) : False := by
    cases hFatal.symm.trans (poisoned_terminate _ _)
  unfold perform at h ⊢
  split at h
  · exact (fatal_absurd _ _ _ h).elim
  · next hUse =>
      rw [if_neg hUse]
      cases hContext : m.context with
      | none =>
          rw [hContext] at h
          exact (fatal_absurd _ _ _ h).elim
      | some context =>
          rw [hContext] at h
          simp only at h ⊢
          cases hOutcome : step context with
          | ok answer after => exact ⟨context, answer, after, rfl, hOutcome, rfl⟩
          | error error after =>
              rw [hOutcome] at h
              exact (fatal_absurd _ _ _ h).elim

/-- Nor has a step that is one. -/
theorem performed {α : Type} {m n : Machine ν} {operation : Step α}
    {next : Machine ν → α → Machine ν} (hStep : m.step = n.perform operation next)
    (hGoesOn : m.step.poisoned = false) :
    ∃ context answer after, n.context = some context ∧ operation context =
      .ok answer after ∧
      m.step = next (n.store after) answer := by
  rw [hStep] at hGoesOn
  obtain ⟨context, answer, after, hContext, hOk, hPerformed⟩ := perform_goesOn hGoesOn
  exact ⟨context, answer, after, hContext, hOk, hStep.trans hPerformed⟩

/-- A step on the context that does not terminate the thread finds it free. -/
theorem free_of_performed {α : Type} {m n : Machine ν} {operation : Step α}
    {next : Machine ν → α → Machine ν} (hStep : m.step = n.perform operation next)
    (hGoesOn : m.step.poisoned = false) : n.inUse = false := by
  cases hUse : n.inUse with
  | false => rfl
  | true =>
      rw [hStep, perform, if_pos hUse] at hGoesOn
      cases hGoesOn.symm.trans (poisoned_terminate _ _)

end Machine

/-! ## Sound machines -/

/-- What the machine is in the middle of is the innermost extent. -/
def Poised : Focus ν → List Extent → Prop
  | .offer region exception, ledger =>
    ∃ rest, ledger = .protecting region.visit (.clauses exception) :: rest
  | .leave region _, ledger =>
      ∃ phase rest, ledger = .protecting region.visit phase :: rest
  | .leaveScope scope, ledger => ∃ rest, ledger = .scope scope.mark :: rest
  | _, _ => True

/-- The context of a thread holds what a ledger accounts for; without a context the
ledger is empty. -/
def Holds (base : Shape) (floor : Nat) :
    Option Context → List Extent → Bool → List Bool → Prop
  | none, ledger, _, parked => ledger = [] ∧ parked = []
  | some context, ledger, flying, parked =>
      ∃ books, Keeps base floor context ledger flying parked books

/-- The next step leaves the base alone: the base is untouched, or the step neither
annotates a frame nor opens or closes the thread. -/
def Spares (base : Shape) (floor : Nat) (m : Machine ν) (ledger : List Extent) : Prop :=
  Untouched base floor ledger ∨
    ((∀ text, m.focus ≠ .exec (.annotate text)) ∧ ledger.head? ≠ some .thread ∧
      m.context.isSome = true)

/-- A machine at a point of a run: it has not been terminated, its context holds what
the ledger accounts for, it is in the middle of the innermost extent, and what is in
flight fits the code that waits.

The base is what a run inside a region must not touch. With `strict`, each raise on its
way is known to have its record. -/
structure Sound (base : Shape) (floor : Nat) (strict : Prop) (m : Machine ν)
    (ledger : List Extent) (flying : Bool)
    (parked : List Bool) : Prop where
  clear : m.poisoned = false
  holds : Holds base floor m.context ledger flying parked
  poised : Poised m.focus ledger
  flow : Flow strict m.bones m.focus.course m.unwindings flying parked

/-- A machine is sound, or the thread has just been terminated; in a strict run, for a
reason that is excused.

In a run that is not strict nothing is said about the reason of a termination, because a
raise that was stopped, or a handle that is mistaken, may leave anything behind. -/
def Lands (base : Shape) (floor : Nat) (strict : Prop) (m : Machine ν)
    (ledger : List Extent) : Prop :=
  (∃ flying parked, Sound base floor strict m ledger flying parked) ∨
    (m.poisoned = true ∧ (strict → ∀ error, m.failure? = some error → Excused error))

variable {base : Shape} {floor : Nat} {strict : Prop} {m : Machine ν}
    {ledger target : List Extent} {flying : Bool}
  {parked : List Bool}

private theorem lands_fatal (m : Machine ν) {error : Error} (dump : Option String)
    (h : strict → Excused error) :
    Lands base floor strict (m.fatal error dump) target := by
  refine .inr ⟨Machine.poisoned_terminate _ _, fun hStrict found hFound => ?_⟩
  rw [Machine.failure?_fatal] at hFound
  cases hFound
  exact h hStrict

private theorem lands_uncaught (m : Machine ν) (exception : Exception) :
    Lands base floor strict (m.uncaught exception) target := by
  refine .inr ⟨Machine.poisoned_terminate _ _, fun _ found hFound => ?_⟩
  rw [Machine.failure?_uncaught] at hFound
  cases hFound

private theorem lands_of (hClear : m.poisoned = false)
    (hHolds : Holds base floor m.context ledger flying parked)
    (hPoised : Poised m.focus ledger)
    (hFlow : Flow strict m.bones m.focus.course m.unwindings flying parked) :
    Lands base floor strict m ledger :=
  .inl ⟨flying, parked, hClear, hHolds, hPoised, hFlow⟩

/-- A step on the context, by what the operation does to a context that keeps the
ledger. -/
theorem lands_perform {α : Type} {step : Step α} {next : Machine ν → α → Machine ν}
    (hStep : ∀ context, m.context = some context →
      Ends (step context)
        (fun answer after => step context = .ok answer after →
          Lands base floor strict (next (m.store after) answer) target)
        fun error => strict → Excused error) :
    Lands base floor strict (m.perform step next) target := by
  unfold Machine.perform
  split
  · exact lands_fatal _ _ fun _ => .reentered
  · split
    · exact lands_fatal _ _ fun _ => excused_contextMissing
    · next context hContext =>
        have h := hStep context hContext
        cases hOutcome : step context with
        | ok answer after =>
            rw [hOutcome] at h
            exact h rfl
        | error error after =>
            rw [hOutcome] at h
            exact lands_fatal _ _ h

/-- A step on a context that succeeds moves the ledger by its answer. -/
theorem after_ok {α : Type} {step : Step α} {move : α → Move} {context after : Context}
    {answer : α} (hContext : m.context = some context)
    (hOk : step context = .ok answer after) : m.after step move = move answer := by
  simp [Machine.after, hContext, hOk]

namespace Sound

/-- In a sound machine the context keeps the ledger. -/
theorem keeps {context : Context} (h : Sound base floor strict m ledger flying parked)
    (hContext : m.context = some context) :
    ∃ books, Keeps base floor context ledger flying parked books := by
  have hHolds := h.holds
  rwa [hContext] at hHolds

/-- With something open, the thread has a context that accounts for it. -/
theorem accounts {extent : Extent}
    (h : Sound base floor strict m (extent :: ledger) flying parked) :
    ∃ context books, m.context = some context ∧
      Keeps base floor context (extent :: ledger) flying parked books := by
  cases hContext : m.context with
  | none =>
      have hHolds := h.holds
      rw [hContext] at hHolds
      cases hHolds.1
  | some context =>
      obtain ⟨books, hKeeps⟩ := h.keeps hContext
      exact ⟨context, books, rfl, hKeeps⟩

/-- While code runs, nothing is in flight. -/
theorem landed (h : Sound base floor strict m ledger flying parked)
    (hRuns : m.focus.course = .runs) : flying = false :=
  (hRuns ▸ h.flow).landed

/-! ## Statements -/

/-- The statement in progress completes. -/
theorem complete {after : Machine ν}
    (h : Sound base floor strict m ledger flying parked)
    (hRuns : m.focus.course = .runs) (hClear : after.poisoned = m.poisoned)
    (hContext : after.context = m.context) (hControl : after.bones = m.bones)
    (hUnwindings : after.unwindings = m.unwindings)
    (hFocus : after.focus.course = .runs) (hPoised : Poised after.focus ledger) :
    Lands base floor strict after ledger := by
  refine lands_of (hClear.trans h.clear) (by rw [hContext]; exact h.holds) hPoised ?_
  rw [hControl, hUnwindings, hFocus, ← hRuns]
  exact h.flow

/-- A block is entered, above code that waits or not. -/
theorem enterBlock (after : Machine ν)
    (h : Sound base floor strict m ledger flying parked)
    (hRuns : m.focus.course = .runs) (hClear : after.poisoned = m.poisoned)
    (hContext : after.context = m.context)
    (hUnwindings : after.unwindings = m.unwindings)
    (hControl : after.bones = m.bones ∨ after.bones = .other :: m.bones)
    (body : List (Stmt ν)) :
    Lands base floor strict (after.enterBlock body) ledger := by
  refine lands_of (hClear.trans h.clear) (by exact hContext ▸ h.holds) trivial ?_
  have hFlow : Flow strict m.bones .runs m.unwindings flying parked := hRuns ▸ h.flow
  have hAfter : Flow strict after.bones .runs after.unwindings flying parked := by
    rw [hUnwindings]
    obtain hSame | hPushed := hControl
    · rwa [hSame]
    · rw [hPushed]
      exact hFlow.push
  exact hAfter.push.run

/-- A panic begins. -/
theorem panic {after : Machine ν} {payload : Payload}
    (h : Sound base floor strict m ledger flying parked)
    (hRuns : m.focus.course = .runs) (hClear : after.poisoned = m.poisoned)
    (hContext : after.context = m.context)
    (hUnwindings : after.unwindings = m.unwindings) (hControl : after.bones = m.bones)
    (hPanic : payload ≠ .raise) :
    Lands base floor strict (after.unwind payload) ledger := by
  refine lands_of (hClear.trans h.clear) (by exact hContext ▸ h.holds) trivial ?_
  have hFlow : Flow strict m.bones .runs m.unwindings flying parked := hRuns ▸ h.flow
  change Flow strict after.bones (.unwinds payload) (after.unwindings + 1) flying parked
  rw [hControl, hUnwindings]
  exact hFlow.panic hPanic

end Sound

/-- A context is opened only where there is none, and the machine is otherwise as it
was. -/
theorem context_openThread (m : Machine ν) (limits : Option Limits) :
    ((m.openThread limits).1 ≠ .opened ∧ (m.openThread limits).2.context = m.context ∧
        (m.openThread limits).2.poisoned = m.poisoned) ∨
      ((m.openThread limits).1 = .opened ∧ m.context = none ∧
        (m.openThread limits).2.poisoned = false ∧
        ∃ config limits', (m.openThread limits).2.context =
          some (Context.new config limits')) := by
  unfold Machine.openThread Machine.installed
  cases hConfig : m.config <;> dsimp only
  all_goals
    split
    · exact .inl ⟨by simp, rfl, rfl⟩
    · split
      · exact .inl ⟨by simp, rfl, rfl⟩
      · next hInitialized =>
          refine .inr ⟨rfl, ?_, rfl, _, _, rfl⟩
          have : m.isInitialized = false := by
            simpa [Machine.isInitialized] using hInitialized
          simp [Machine.isInitialized] at this
          exact this.2

/-- To open a context does not change what happens next. -/
theorem focus_openThread (m : Machine ν) (limits : Option Limits) :
    (m.openThread limits).2.focus = m.focus := by
  unfold Machine.openThread Machine.installed
  cases m.config <;> dsimp only <;> split <;> first | rfl | (split <;> rfl)

/-- To open a context begins no unwinding. -/
theorem unwindings_openThread (m : Machine ν) (limits : Option Limits) :
    (m.openThread limits).2.unwindings = m.unwindings := by
  unfold Machine.openThread Machine.installed
  cases m.config <;> dsimp only <;> split <;> first | rfl | (split <;> rfl)

namespace Machine

/-- A block that gets a handle does not poison the machine. -/
theorem poisoned_own (m : Machine ν) (name : String) (handle : Handle ν) :
    (m.own name handle).poisoned = m.poisoned := by
  unfold own
  split <;> rfl

/-- A block that gets a handle leaves the context as it is. -/
theorem context_own (m : Machine ν) (name : String) (handle : Handle ν) :
    (m.own name handle).context = m.context := by
  unfold own
  split <;> rfl

/-- A block that gets a handle begins no unwinding. -/
theorem unwindings_own (m : Machine ν) (name : String) (handle : Handle ν) :
    (m.own name handle).unwindings = m.unwindings := by
  unfold own
  split <;> rfl

end Machine

namespace Machine

/-- Notices only go to what has been told. -/
theorem foldl_note_same (notices : List Notice) (m : Machine ν) :
    (notices.foldl note m).poisoned = m.poisoned ∧ (notices.foldl note m).context =
      m.context ∧
      (notices.foldl note m).unwindings = m.unwindings := by
  induction notices generalizing m with
  | nil => exact ⟨rfl, rfl, rfl⟩
  | cons notice rest ih => exact ih (m.note notice)

/-- Closing the thread takes its context away, unless that is in use. -/
theorem closeThread_clear {m : Machine ν} (h : m.poisoned = false) :
    m.closeThread.2.poisoned = false ∧ m.closeThread.2.control = m.control ∧
      m.closeThread.2.unwindings = m.unwindings ∧
      m.closeThread.2.context = if m.inUse = true then m.context else none := by
  refine ⟨?_, control_closeThread m, ?_, ?_⟩ <;> unfold closeThread
  · repeat' split
    all_goals exact h
  · repeat' split
    all_goals rfl
  · cases m.inUse with
    | true => rfl
    | false =>
        simp only [Bool.false_eq_true, if_false]
        split
        · next hNone => exact hNone
        · split <;> rfl

/-- The handle of a thread closes its context, unless that is in use just then. -/
theorem dropThread_clear {m : Machine ν} (h : m.poisoned = false) :
    m.dropThread.poisoned = false ∧ m.dropThread.control = m.control ∧
      m.dropThread.unwindings = m.unwindings ∧
      m.dropThread.context = if m.inUse = true then m.context else none := by
  have hClose := closeThread_clear h
  unfold dropThread
  rw [if_neg (by simp [h])]
  cases hOutcome : m.closeThread with
  | mk outcome after =>
      rw [hOutcome] at hClose
      cases outcome <;> exact hClose

end Machine

private theorem control_of_holdsRaise (h : Bone.holdsRaise m.bones = true) :
    ∃ below, m.control = .unwinding .raise :: below := by
  unfold Machine.bones at h
  cases hControl : m.control with
  | nil =>
      rw [hControl] at h
      cases h
  | cons waiting below =>
      rw [hControl] at h
      cases waiting with
      | unwinding payload =>
          cases payload with
          | raise => exact ⟨below, rfl⟩
          | panic text => cases h
          | termination termination => cases h
      | _ => cases h

/-- A handle is given to the innermost block, and the statement goes on. -/
theorem lands_own {after : Machine ν} {name : String} {handle : Handle ν}
    {stmt : Stmt ν} (hFlow : Flow strict m.bones .runs m.unwindings flying parked)
    (hClear : after.poisoned = false) (hControl : after.control = m.control)
    (hUnwindings : after.unwindings = m.unwindings)
    (hHolds : Holds base floor after.context ledger flying parked) :
    Lands base floor strict ((after.own name handle).goto (.exec stmt)) ledger := by
  have hOwned :
      Holds base floor (after.own name handle).context ledger flying parked := by
      rwa [Machine.context_own]
  have hGoes :
      Flow strict (after.own name handle).bones .runs (after.own name handle).unwindings
      flying parked := by
    rwa [bone_own, Machine.unwindings_own, hUnwindings, Machine.bones, hControl]
  exact lands_of ((Machine.poisoned_own _ _ _).trans hClear) hOwned trivial hGoes

namespace Sound

private theorem acquireThread {name : String} {limits : Option Limits} {times : Nat}
    (h : Sound base floor strict m ledger flying parked)
    (hBase : Spares base floor m ledger)
    (hFocus : m.focus = .exec (.acquire name (.thread limits) (times + 1))) :
    Lands base floor strict
      (m.acquire name (.thread limits) fun m =>
      m.goto (.exec (.acquire name (.thread limits) times)))
      (m.move.apply ledger) := by
  have hRuns : m.focus.course = .runs := by rw [hFocus]; rfl
  obtain rfl := h.landed hRuns
  have hFlow : Flow strict m.bones .runs m.unwindings false parked := hRuns ▸ h.flow
  have hControl := Machine.control_openThread m limits
  have hUnwindings := unwindings_openThread m limits
  have hCases := context_openThread m limits
  cases hOpen : m.openThread limits with
  | mk outcome after =>
      rw [hOpen] at hControl hUnwindings hCases
      simp only at hControl hUnwindings hCases
      have hBones : after.bones = m.bones := congrArg (List.map _) hControl
      simp only [Machine.acquire, Machine.move, hFocus, hOpen]
      obtain ⟨hRefused, hContext, hClear⟩
          | ⟨rfl, hNone, hClear, config, limits', hContext⟩ := hCases
      · cases outcome with
        | opened => exact absurd rfl hRefused
        | refused error =>
            exact h.complete hRuns hClear hContext hBones hUnwindings rfl trivial
        | overflowed =>
            exact h.panic hRuns hClear hContext hUnwindings hBones fun hRaise => by
              cases hRaise
      · have hHolds := h.holds
        rw [hNone] at hHolds
        obtain ⟨rfl, rfl⟩ := hHolds
        obtain (⟨rfl, rfl⟩ | ⟨_, _, hMem⟩) | ⟨-, -, hSome⟩ := hBase
        · exact lands_own hFlow hClear hControl hUnwindings
            (by rw [hContext]; exact keeps_new _ _)
        · cases hMem
        · rw [hNone] at hSome
          cases hSome

private theorem acquire {name : String} {opening : Opening} {times : Nat}
    (h : Sound base floor strict m ledger flying parked)
    (hBase : Spares base floor m ledger)
    (hFocus : m.focus = .exec (.acquire name opening (times + 1))) :
    Lands base floor strict
      (m.acquire name opening fun m => m.goto (.exec (.acquire name opening times)))
      (m.move.apply ledger) := by
  have hRuns : m.focus.course = .runs := by rw [hFocus]; rfl
  have hFlow : Flow strict m.bones .runs m.unwindings flying parked := hRuns ▸ h.flow
  unfold Machine.acquire
  cases opening with
  | thread limits => exact h.acquireThread hBase hFocus
  | region site =>
      obtain rfl := h.landed hRuns
      have hMove : m.move = m.after (Context.enter site true)
          fun visit => .opens (.region visit) := by
        simp only [Machine.move, hFocus]
      rw [hMove]
      refine lands_perform fun context hContext => ?_
      obtain ⟨books, hKeeps⟩ := h.keeps hContext
      refine (keeps_enter hKeeps).mono (fun visit after hAfter hOk => ?_)
        fun _ hError _ => hError.excused
      obtain ⟨books, hAfter⟩ := hAfter
      rw [after_ok hContext hOk]
      exact lands_own hFlow h.clear rfl rfl ⟨_, hAfter.stored⟩
  | call site =>
      obtain rfl := h.landed hRuns
      have hMove : m.move = m.after (Context.enterCall site)
          fun entry => .opens (.call entry) := by
        simp only [Machine.move, hFocus]
      rw [hMove]
      refine lands_perform fun context hContext => ?_
      obtain ⟨books, hKeeps⟩ := h.keeps hContext
      refine (keeps_enterCall hKeeps).mono (fun entry after hAfter hOk => ?_)
        fun _ hError _ => hError.excused
      obtain ⟨books, hAfter⟩ := hAfter
      rw [after_ok hContext hOk]
      exact lands_own hFlow h.clear rfl rfl ⟨_, hAfter.stored⟩
  | guards site =>
      have hMove : m.move = .stay := by simp only [Machine.move, hFocus]
      rw [hMove]
      exact lands_own hFlow h.clear rfl rfl h.holds

private theorem registerGuard {name : String} {flavor : Flavor} {body : List (Stmt ν)}
    (h : Sound base floor strict m ledger flying parked)
    (hFocus : m.focus = .exec (.guard name flavor body)) :
    Lands base floor strict (m.registerGuard name flavor body)
      (m.move.apply ledger) := by
  have hRuns : m.focus.course = .runs := by rw [hFocus]; rfl
  have hFlow : Flow strict m.bones .runs m.unwindings flying parked := hRuns ▸ h.flow
  simp only [Machine.registerGuard, Machine.move, hFocus]
  cases hFind : Handle.find? name m.control with
  | none => exact h.complete hRuns rfl rfl rfl rfl rfl trivial
  | some handle =>
      cases handle with
      | guards scope =>
          simp only
          cases hMark : scope.mark with
          | some mark => exact h.complete hRuns rfl rfl (bone_put _ _ _) rfl rfl trivial
          | none =>
              refine lands_perform fun context hContext => ?_
              obtain ⟨books, hKeeps⟩ := h.keeps hContext
              refine (keeps_openScope hKeeps).mono (fun mark after hAfter hOk => ?_)
                fun _ hError _ => hError.excused
              obtain ⟨books, hAfter⟩ := hAfter
              simp only [Option.isNone_none, if_true]
              rw [after_ok hContext hOk]
              refine lands_of h.clear ⟨_, hAfter.stored⟩ trivial ?_
              change Flow strict
                (List.map Resumption.bone (Handle.put name _ m.control))
                .runs m.unwindings flying parked
              rw [bone_put]
              exact hFlow
      | thread => exact h.complete hRuns rfl rfl rfl rfl rfl trivial
      | region visit inUnwinding => exact h.complete hRuns rfl rfl rfl rfl rfl trivial
      | call entry inUnwinding => exact h.complete hRuns rfl rfl rfl rfl rfl trivial

/-! ## Handles that are dropped -/

/-- With a record in flight, a handle is dropped by a raise; and in a strict run it was
opened before that. -/
theorem dropped_by_raise {handle : Handle ν}
    (h : Sound base floor strict m ledger true parked) (hFocus : m.focus = .drop handle)
    (hStale : ¬ m.LeavesStale) :
    m.isPanicking = true ∧ handle.inUnwinding = false := by
  have hFlow := h.flow
  rw [hFocus] at hFlow
  have hHolds : Bone.holdsRaise m.bones = true := hFlow.carries rfl
  have hActive := hFlow.active
  obtain ⟨below, hControl⟩ := control_of_holdsRaise hHolds
  rw [Machine.bones, hControl] at hActive
  have hPositive : Bone.held (below.map Resumption.bone) + 1 ≤ m.unwindings := hActive
  refine ⟨by simp only [Machine.isPanicking, decide_eq_true_eq]; omega, ?_⟩
  cases hOld : handle.inUnwinding with
  | false => rfl
  | true => exact absurd ⟨handle, below, hFocus, hOld, hControl⟩ hStale

/-- The thread is closed, if its context is not in use. -/
theorem holds_closed {after : Option Context}
    (h : Sound base floor strict m ledger flying parked)
    (hBase : Spares base floor m ledger) (hHead : ledger.head? = some .thread)
    (hContext : after = if m.inUse = true then m.context else none) :
    Holds base floor after (m.closesThread.apply ledger) flying parked := by
  unfold Machine.closesThread
  rw [hContext]
  split
  · exact h.holds
  · obtain ⟨rest, rfl⟩ := List.head?_eq_some_iff.1 hHead
    cases hOpen : m.context with
    | none =>
        have hHolds := h.holds
        rw [hOpen] at hHolds
        cases hHolds.1
    | some context =>
        obtain ⟨books, hKeeps⟩ := h.keeps hOpen
        obtain rfl := hKeeps.alone
        obtain (⟨rfl, rfl⟩ | ⟨_, _, hMem⟩) | ⟨-, hNot, -⟩ := hBase
        · exact ⟨rfl, hKeeps.parked_of_thread⟩
        · simp at hMem
        · exact absurd rfl hNot

private theorem drop {handle : Handle ν}
    (h : Sound base floor strict m ledger flying parked)
    (hBase : Spares base floor m ledger) (hTurn : m.InTurn ledger)
    (hStale : strict → ¬ m.LeavesStale) (hFocus : m.focus = .drop handle) :
    Lands base floor strict (m.drop handle) (m.move.apply ledger) := by
  have hHead (extent : Extent) (hExtent : handle.extent? = some extent) :
      ledger.head? = some extent :=
    hTurn.closing extent (by rw [Machine.closing?, hFocus]; exact hExtent)
  have hFlow : Flow strict m.bones .drops m.unwindings flying parked := by
    have hFlow := h.flow
    rwa [hFocus] at hFlow
  cases handle with
  | thread =>
      obtain ⟨hClear, hControl, hUnwindings, hContext⟩ :=
        Machine.dropThread_clear h.clear
      have hBones : m.dropThread.bones = m.bones := congrArg (List.map _) hControl
      simp only [Machine.drop, Machine.move, hFocus]
      refine lands_of hClear (h.holds_closed hBase (hHead _ rfl) hContext) trivial ?_
      change Flow strict m.dropThread.bones .drops m.dropThread.unwindings flying parked
      rwa [hBones, hUnwindings]
  | region visit inUnwinding =>
      obtain ⟨rest, rfl⟩ := List.head?_eq_some_iff.1 (hHead _ rfl)
      simp only [Machine.drop, Machine.move, hFocus, h.clear, Bool.false_eq_true,
        if_false]
      split
      · refine lands_perform fun context hContext => ?_
        obtain ⟨books, hKeeps⟩ := h.keeps hContext
        refine (keeps_leave_region hKeeps fun _ => rfl).mono
          (fun _ after hAfter _ => ?_) fun _ => False.elim
        obtain ⟨books, hAfter⟩ := hAfter
        exact lands_of h.clear ⟨_, hAfter.stored⟩ trivial hFlow
      · next hNot =>
          refine lands_perform fun context hContext => ?_
          obtain ⟨books, hKeeps⟩ := h.keeps hContext
          refine (keeps_abandon hKeeps).mono (fun _ after hAfter _ => ?_)
            fun _ hError _ => hError ▸ .unreported _
          obtain ⟨books, hAfter⟩ := hAfter
          refine lands_of h.clear ⟨_, hAfter.stored⟩
            trivial (hFlow.abandon fun hStrict => ?_)
          cases flying with
          | false => rfl
          | true =>
              obtain ⟨hPanicking, hOld⟩ := h.dropped_by_raise hFocus (hStale hStrict)
              exact absurd (by simpa [Handle.inUnwinding, hPanicking] using hOld) hNot
  | call entry inUnwinding =>
      obtain ⟨rest, rfl⟩ := List.head?_eq_some_iff.1 (hHead _ rfl)
      simp only [Machine.drop, Machine.move, hFocus, h.clear, Bool.false_eq_true,
        if_false]
      refine lands_perform fun context hContext => ?_
      obtain ⟨books, hKeeps⟩ := h.keeps hContext
      refine (keeps_leaveCall hKeeps).mono (fun _ after hAfter _ => ?_)
        fun _ hError hStrict => ?_
      · obtain ⟨books, hAfter⟩ := hAfter
        exact lands_of h.clear ⟨_, hAfter.stored⟩ trivial hFlow
      · obtain ⟨hNot, rfl⟩ := hError
        obtain ⟨hPanicking, hOld⟩ := h.dropped_by_raise hFocus (hStale hStrict)
        simp [Handle.inUnwinding] at hOld
        simp [hPanicking, hOld] at hNot
  | guards scope =>
      simp only [Machine.drop, Machine.move, hFocus]
      cases hMark : scope.mark with
      | none => exact lands_of h.clear h.holds trivial hFlow
      | some mark =>
          simp only [h.clear, Bool.false_eq_true, if_false]
          exact lands_of h.clear h.holds
            (List.head?_eq_some_iff.1 (hHead _ (by simp [Handle.extent?, hMark]))) hFlow

/-- A handle is given up. If it is to be dropped, that is a step of its own; only a
region that is left and a thread that is shut down are seen to here. -/
private theorem release {name : String} {how : Closing}
    (h : Sound base floor strict m ledger flying parked)
    (hBase : Spares base floor m ledger) (hTurn : m.InTurn ledger)
    (hFocus : m.focus = .exec (.release name how)) :
    Lands base floor strict (m.release name how) (m.move.apply ledger) := by
  have hRuns : m.focus.course = .runs := by rw [hFocus]; rfl
  have hFlow : Flow strict m.bones .runs m.unwindings flying parked := hRuns ▸ h.flow
  have hHead := hTurn.closing
  simp only [Machine.closing?, hFocus] at hHead
  simp only [Machine.move, hFocus]
  unfold Machine.release
  cases hTake : Handle.take? name m.control with
  | none => exact h.complete hRuns rfl rfl rfl rfl rfl trivial
  | some taken =>
      obtain ⟨handle, control⟩ := taken
      have hBones := bone_take? hTake
      rw [hTake] at hHead
      have hKept :
          Flow strict (control.map Resumption.bone) .runs m.unwindings flying
          parked := by rwa [hBones]
      have dropping : Lands base floor strict
          ((({ m with control } : Machine ν).push .releasing).goto (.drop handle))
            ledger :=
        lands_of h.clear h.holds trivial hKept.push.run
      cases how with
      | drop => cases handle <;> exact dropping
      | forget => cases handle <;> exact h.complete hRuns rfl rfl hBones rfl rfl trivial
      | leave =>
          cases handle with
          | region visit inUnwinding =>
              obtain ⟨rest, rfl⟩ := List.head?_eq_some_iff.1 (hHead _ rfl)
              obtain rfl := h.landed hRuns
              refine lands_perform fun context hContext => ?_
              obtain ⟨books, hKeeps⟩ := h.keeps hContext
              refine (keeps_leave_region hKeeps fun hFlying => nomatch hFlying).mono
                (fun _ after hAfter _ => ?_) fun _ => False.elim
              obtain ⟨books, hAfter⟩ := hAfter
              exact lands_of h.clear ⟨_, hAfter.stored⟩ trivial hKept
          | thread => exact dropping
          | call entry inUnwinding => exact dropping
          | guards scope => exact dropping
      | shutdown =>
          cases handle with
          | thread =>
              obtain ⟨hClear, hControl, hUnwindings, hContext⟩ :=
                Machine.closeThread_clear (m := { m with control }) h.clear
              refine lands_of hClear (h.holds_closed hBase (hHead _ rfl) hContext)
                trivial ?_
              change Flow strict
                (({ m with control } : Machine ν).closeThread.2.control.map
                Resumption.bone) .runs
                ({ m with control } : Machine ν).closeThread.2.unwindings flying parked
              rwa [hControl, hUnwindings]
          | region visit inUnwinding => exact dropping
          | call entry inUnwinding => exact dropping
          | guards scope => exact dropping

/-! ## Guard bodies -/

private theorem leaveScope {scope : Leaving ν}
    (h : Sound base floor strict m ledger flying parked)
    (hFocus : m.focus = .leaveScope scope) :
    Lands base floor strict (m.leaveScope scope) (m.move.apply ledger) := by
  have hFlow : Flow strict m.bones .drops m.unwindings flying parked := by
    have hFlow := h.flow
    rwa [hFocus] at hFlow
  have hPoised := h.poised
  rw [hFocus] at hPoised
  obtain ⟨rest, rfl⟩ := hPoised
  simp only [Machine.move, hFocus]
  unfold Machine.leaveScope
  cases scope.bodies with
  | nil =>
      refine lands_perform fun context hContext => ?_
      obtain ⟨books, hKeeps⟩ := h.keeps hContext
      refine (keeps_closeScope hKeeps).mono (fun _ after hAfter _ => ?_)
        fun _ => False.elim
      obtain ⟨books, hAfter⟩ := hAfter
      exact lands_of h.clear ⟨_, hAfter.stored⟩ trivial hFlow
  | cons registered bodies =>
      obtain ⟨flavor, body⟩ := registered
      simp only
      split
      · refine lands_perform fun context hContext => ?_
        obtain ⟨books, hKeeps⟩ := h.keeps hContext
        refine (keeps_shield hKeeps).mono (fun _ after hAfter _ => ?_) fun _ hError _ =>
          hError.excused
        exact lands_of h.clear ⟨_, hAfter.stored⟩ trivial hFlow.shield.push.run
      · exact lands_of h.clear h.holds ⟨rest, rfl⟩ hFlow

/-! ## Raises -/

private theorem raise {ref : KindRef} {site : Site} {message : List (Piece ν)}
    (h : Sound base floor strict m ledger flying parked)
    (hRuns : m.focus.course = .runs) :
    Lands base floor strict (m.raise ref site message) ledger := by
  unfold Machine.raise
  cases ref.resolve? m.registry.slots with
  | none =>
      exact lands_fatal _ _ fun _ => .outside (by rintro (⟨_, h⟩ | ⟨_, h⟩) <;> cases h)
  | some kind =>
      refine lands_perform fun context hContext => ?_
      obtain ⟨books, hKeeps⟩ := h.keeps hContext
      refine ends_bind
        (ends_ofExcept (fun entry _ => ends_bind (ends_get (ends_pure fun _ => ?_)))
        fun error hError _ => ?_)
      · have hFlow : Flow strict m.bones .runs m.unwindings flying parked :=
          hRuns ▸ h.flow
        exact lands_of h.clear ⟨_, hKeeps.stored⟩ trivial hFlow
      · refine .outside ?_
        unfold KindTable.entry at hError
        split at hError
        · cases hError
          rintro (⟨_, h⟩ | ⟨_, h⟩) <;> cases h
        · split at hError
          · cases hError
          · cases hError
            rintro (⟨_, h⟩ | ⟨_, h⟩) <;> cases h

private theorem finishRaise {raising : Raising}
    (h : Sound base floor strict m ledger flying parked)
    (hRuns : m.focus.course = .runs) :
    Lands base floor strict (m.finishRaise raising) ledger := by
  obtain rfl := h.landed hRuns
  have hFlow : Flow strict m.bones .runs m.unwindings false parked := hRuns ▸ h.flow
  unfold Machine.finishRaise
  dsimp only
  refine lands_perform fun context hContext => ?_
  obtain ⟨books, hKeeps⟩ := h.keeps hContext
  refine (keeps_raise hKeeps).mono (fun answer after hAfter _ => ?_) fun _ hError _ =>
    hError.excused
  cases answer with
  | some exception => exact lands_uncaught _ _
  | none =>
      obtain ⟨books, hAfter⟩ := hAfter rfl
      exact lands_of h.clear ⟨_, hAfter.stored⟩ trivial hFlow.raise

private theorem write {raising : Raising} {pieces : List (Piece ν)}
    (h : Sound base floor strict m ledger flying parked)
    (hRuns : m.focus.course = .runs) :
    Lands base floor strict (m.write raising pieces) ledger := by
  unfold Machine.write
  cases pieces with
  | nil => exact h.finishRaise hRuns
  | cons piece rest =>
      cases piece with
      | text text =>
          simp only
          split
          · exact h.complete hRuns rfl rfl rfl rfl rfl trivial
          · exact h.finishRaise hRuns
      | run body =>
          exact h.enterBlock (m.push (.message raising rest)) hRuns rfl rfl rfl
            (.inr rfl) body

private theorem forward {exception : Exception}
    (h : Sound base floor strict m ledger flying parked)
    (hRuns : m.focus.course = .runs) :
    Lands base floor strict (m.forward exception) ledger := by
  obtain rfl := h.landed hRuns
  have hFlow : Flow strict m.bones .runs m.unwindings false parked := hRuns ▸ h.flow
  refine lands_perform fun context hContext => ?_
  obtain ⟨books, hKeeps⟩ := h.keeps hContext
  refine (keeps_forward hKeeps).mono (fun answer after hAfter _ => ?_) fun _ hError _ =>
    hError.excused
  cases answer with
  | some exception => exact lands_uncaught _ _
  | none =>
      obtain ⟨books, hAfter⟩ := hAfter rfl
      exact lands_of h.clear ⟨_, hAfter.stored⟩ trivial hFlow.raise

/-! ## Protected regions -/

/-- A protected region is entered soundly: either its body begins with the region on the
ledger, or there was no room for it and the thread is terminated. -/
theorem protect {levels : Nat} {site : Site} {mode : Mode} {clauses : List (Clause ν)}
    {body : List (Stmt ν)} (h : Sound base floor strict m ledger flying parked)
    (hFocus : m.focus = .exec (.protect levels site mode clauses body)) :
    Lands base floor strict (m.protect levels site mode clauses body)
      (m.move.apply ledger) := by
  have hRuns : m.focus.course = .runs := by rw [hFocus]; rfl
  obtain rfl := h.landed hRuns
  have hFlow : Flow strict m.bones .runs m.unwindings false parked := hRuns ▸ h.flow
  simp only [Machine.move, hFocus]
  refine lands_perform fun context hContext => ?_
  obtain ⟨books, hKeeps⟩ := h.keeps hContext
  refine (keeps_enter hKeeps).mono (fun visit after hAfter hOk => ?_) fun _ hError _ =>
    hError.excused
  obtain ⟨books, hAfter⟩ := hAfter
  rw [after_ok hContext hOk]
  match levels with
  | inner + 2 => exact lands_of h.clear ⟨_, hAfter.stored⟩ trivial hFlow.push
  | 0 => exact lands_of h.clear ⟨_, hAfter.stored⟩ trivial hFlow.push.push.run
  | 1 => exact lands_of h.clear ⟨_, hAfter.stored⟩ trivial hFlow.push.push.run

private theorem offer {region : Protected ν} {exception : Exception}
    (h : Sound base floor strict m ledger flying parked)
    (hFocus : m.focus = .offer region exception) :
    Lands base floor strict (m.offer region exception) (m.move.apply ledger) := by
  have hRuns : m.focus.course = .runs := by rw [hFocus]; rfl
  have hFlow : Flow strict m.bones .runs m.unwindings flying parked := hRuns ▸ h.flow
  have hPoised := h.poised
  rw [hFocus] at hPoised
  obtain ⟨rest, rfl⟩ := hPoised
  simp only [Machine.move, hFocus]
  unfold Machine.offer
  dsimp only
  generalize List.find? _ _ = fitting
  cases fitting with
  | none => exact lands_of h.clear h.holds ⟨_, _, rfl⟩ hFlow
  | some found =>
      refine lands_perform fun context hContext => ?_
      obtain ⟨books, hKeeps⟩ := h.keeps hContext
      refine (keeps_beginHandling hKeeps).mono (fun _ after hAfter _ => ?_)
        fun _ => False.elim
      obtain ⟨books, hAfter⟩ := hAfter
      exact lands_of h.clear ⟨_, hAfter.stored⟩ trivial hFlow.push.push.run

private theorem leave {region : Protected ν} {outcome : Except Exception (Option ν)}
    (h : Sound base floor strict m ledger flying parked)
    (hFocus : m.focus = .leave region outcome) :
    Lands base floor strict (m.leave region outcome) (m.move.apply ledger) := by
  have hRuns : m.focus.course = .runs := by rw [hFocus]; rfl
  obtain rfl := h.landed hRuns
  have hFlow : Flow strict m.bones .runs m.unwindings false parked := hRuns ▸ h.flow
  have hPoised := h.poised
  rw [hFocus] at hPoised
  obtain ⟨phase, rest, rfl⟩ := hPoised
  simp only [Machine.move, hFocus]
  refine lands_perform fun context hContext => ?_
  obtain ⟨books, hKeeps⟩ := h.keeps hContext
  refine (keeps_leave_protecting hKeeps fun hFlying => nomatch hFlying).mono
    (fun _ after hAfter _ => ?_) fun _ => False.elim
  obtain ⟨books, hAfter⟩ := hAfter
  cases outcome with
  | ok value =>
      cases region.mode <;> exact lands_of h.clear ⟨_, hAfter.stored⟩ trivial hFlow
  | error exception =>
      cases region.mode <;> exact lands_of h.clear ⟨_, hAfter.stored⟩ trivial hFlow

/-- An unwinding leaves the innermost protected region, whose code has been taken off
the waiting code. -/
theorem passThrough {popped : Machine ν} {region : Protected ν} {payload : Payload}
    {phase : Phase} {rest : List Extent}
    (h : Sound base floor strict m (.protecting region.visit phase :: rest)
      flying parked)
    (hContext : popped.context = m.context) (hClear : popped.poisoned = false)
    (hFlow : Flow strict popped.bones (.unwinds payload) popped.unwindings flying
      parked) :
    Lands base floor strict (popped.passThrough region payload) rest := by
  unfold Machine.passThrough
  rw [if_neg (by simp [hClear])]
  refine lands_perform fun context hSome => ?_
  obtain ⟨books, hKeeps⟩ := h.keeps (hContext.symm.trans hSome)
  refine (keeps_leave_protecting hKeeps fun _ => rfl).mono (fun _ after hAfter _ => ?_)
    fun _ => False.elim
  obtain ⟨books, hAfter⟩ := hAfter
  exact lands_of hClear ⟨_, hAfter.stored⟩ trivial hFlow

/-! ## All statements -/

/-- The statements. Most touch neither the context nor the waiting code, and the others
have lemmas of their own above. -/
private theorem exec {stmt : Stmt ν}
    (h : Sound base floor strict m ledger flying parked)
    (hBase : Spares base floor m ledger) (hTurn : m.InTurn ledger)
    (hFocus : m.focus = .exec stmt) :
    Lands base floor strict (m.exec stmt) (m.move.apply ledger) := by
  have hRuns : m.focus.course = .runs := by rw [hFocus]; rfl
  have hFlow : Flow strict m.bones .runs m.unwindings flying parked := hRuns ▸ h.flow
  have same {after : Machine ν} (hStay : m.move = .stay)
    (hAfter : after.poisoned = m.poisoned ∧ after.context = m.context ∧ after.control =
      m.control ∧ after.unwindings = m.unwindings ∧
      ((∃ value, after.focus = .complete value) ∨ ∃ exception,
      after.focus = .forward exception)) :
      Lands base floor strict after (m.move.apply ledger) := by
    obtain ⟨hClear, hContext, hControl, hUnwindings, hAfterFocus⟩ := hAfter
    rw [hStay]
    obtain ⟨value, hAfterFocus⟩ | ⟨exception, hAfterFocus⟩ := hAfterFocus
    · exact h.complete hRuns hClear hContext (congrArg (List.map _) hControl)
        hUnwindings (by rw [hAfterFocus]; rfl)
        (by rw [hAfterFocus]; trivial)
    · exact h.complete hRuns hClear hContext (congrArg (List.map _) hControl)
        hUnwindings (by rw [hAfterFocus]; rfl)
        (by rw [hAfterFocus]; trivial)
  have stays (hMove : m.move = .stay) {after : Machine ν}
    (hAfter : Lands base floor strict after ledger) :
      Lands base floor strict after (m.move.apply ledger) := by rwa [hMove]
  cases stmt with
  | raise kind site message =>
      exact stays (by simp only [Machine.move, hFocus]) (h.raise hRuns)
  | panic text =>
      exact stays (by simp only [Machine.move, hFocus])
        (h.panic hRuns rfl rfl rfl rfl (by simp))
  | protect levels site mode clauses body => exact h.protect hFocus
  | guard scope flavor body => exact h.registerGuard hFocus
  | release name how => exact h.release hBase hTurn hFocus
  | acquire name opening times =>
      cases times with
      | zero =>
          exact same (by simp only [Machine.move, hFocus])
            ⟨rfl, rfl, rfl, rfl, .inl ⟨_, rfl⟩⟩
      | succ times => exact h.acquire hBase hFocus
  | block body =>
      exact stays (by simp only [Machine.move, hFocus])
        (h.enterBlock m hRuns rfl rfl rfl (.inl rfl) body)
  | loop times body =>
      cases times with
      | zero =>
          exact same (by simp only [Machine.move, hFocus])
            ⟨rfl, rfl, rfl, rfl, .inl ⟨_, rfl⟩⟩
      | succ times =>
          exact stays (by simp only [Machine.move, hFocus])
            (h.enterBlock (m.push (.loop times body)) hRuns rfl rfl rfl (.inr rfl) body)
  | attempt body resume =>
      exact stays (by simp only [Machine.move, hFocus])
        (h.enterBlock (m.push (.attempt resume)) hRuns rfl rfl rfl (.inr rfl) body)
  | rethrow name =>
      simp only [Machine.exec]
      split
      · exact same (by simp only [Machine.move, hFocus])
          ⟨rfl, rfl, rfl, rfl, .inr ⟨_, rfl⟩⟩
      · exact same (by simp only [Machine.move, hFocus])
          ⟨rfl, rfl, rfl, rfl, .inl ⟨_, rfl⟩⟩
  | annotate text =>
      simp only [Machine.exec, Machine.ask]
      cases m.inUse with
      | true =>
          exact same (by simp only [Machine.move, hFocus])
            ⟨rfl, rfl, rfl, rfl, .inl ⟨_, rfl⟩⟩
      | false =>
          cases hContext : m.context with
          | none =>
              exact same (by simp only [Machine.move, hFocus])
                ⟨rfl, rfl, rfl, rfl, .inl ⟨_, rfl⟩⟩
          | some context =>
              obtain ⟨books, hKeeps⟩ := h.keeps hContext
              have hMove : m.move = .stay := by simp only [Machine.move, hFocus]
              rw [hMove]
              obtain hBase | ⟨hNot, -⟩ := hBase
              · exact lands_of h.clear (keeps_annotate hKeeps hBase) trivial hFlow
              · exact absurd hFocus (hNot text)
  | inspect name =>
      simp only [Machine.exec]
      split
      · exact same (by simp only [Machine.move, hFocus])
          ⟨rfl, rfl, rfl, rfl, .inl ⟨_, rfl⟩⟩
      · exact same (by simp only [Machine.move, hFocus])
          ⟨rfl, rfl, rfl, rfl, .inl ⟨_, rfl⟩⟩
  | configure config =>
      simp only [Machine.exec]
      split
      · exact same (by simp only [Machine.move, hFocus])
          ⟨rfl, rfl, rfl, rfl, .inl ⟨_, rfl⟩⟩
      · exact same (by simp only [Machine.move, hFocus])
          ⟨rfl, rfl, rfl, rfl, .inl ⟨_, rfl⟩⟩
  | declare entry =>
      simp only [Machine.exec]
      split
      · exact same (by simp only [Machine.move, hFocus])
          ⟨rfl, rfl, rfl, rfl, .inl ⟨_, rfl⟩⟩
      · next kind registry notices _ =>
          refine same (by simp only [Machine.move, hFocus])
            ⟨?_, ?_, ?_, ?_, .inl ⟨_, rfl⟩⟩
          · exact (Machine.foldl_note_same notices _).1
          · exact (Machine.foldl_note_same notices _).2.1
          · exact Machine.control_foldl_note notices _
          · exact (Machine.foldl_note_same notices _).2.2
  | _ =>
      exact same (by simp only [Machine.move, hFocus])
        ⟨rfl, rfl, rfl, rfl, .inl ⟨_, rfl⟩⟩

/-! ## Code that waits -/

private theorem proceed (h : Sound base floor strict m ledger flying parked)
    (hFocus : m.focus = .next) :
    Lands base floor strict m.proceed ledger := by
  have hFlow := h.flow
  rw [hFocus] at hFlow
  unfold Machine.proceed
  unfold Machine.bones at hFlow
  split
  · next hControl =>
      rw [hControl] at hFlow
      exact lands_of h.clear h.holds trivial (Flow.resume hFlow)
  · next hControl =>
      rw [hControl] at hFlow
      exact lands_of h.clear h.holds trivial hFlow
  · next hControl =>
      rw [hControl] at hFlow
      exact lands_of h.clear h.holds trivial (Flow.resume hFlow).pop
  · next hControl =>
      rw [hControl] at hFlow
      exact lands_of h.clear h.holds trivial (Flow.resume hFlow).pop
  · next hControl =>
      rw [hControl] at hFlow
      exact lands_of h.clear h.holds trivial (Flow.release hFlow (.inr rfl))
  · exact lands_of h.clear h.holds trivial (Flow.stop hFlow)

private theorem completed {value : Option (Option ν)}
    (h : Sound base floor strict m ledger flying parked)
    (hRuns : m.focus.course = .runs) :
    Lands base floor strict (m.complete value) ledger := by
  have hFlow : Flow strict m.bones .runs m.unwindings flying parked := hRuns ▸ h.flow
  unfold Machine.complete
  unfold Machine.bones at hFlow
  split
  · next hControl =>
      rw [hControl] at hFlow
      exact lands_of h.clear h.holds trivial (Flow.run hFlow)
  · exact lands_of h.clear h.holds trivial hFlow.run

private theorem deliver {value : Option ν}
    (h : Sound base floor strict m ledger flying parked)
    (hBase : Spares base floor m ledger) (hTurn : m.InTurn ledger)
    (hFocus : m.focus = .deliver value) :
    Lands base floor strict (m.deliver value) (m.move.apply ledger) := by
  have hRuns : m.focus.course = .runs := by rw [hFocus]; rfl
  obtain rfl := h.landed hRuns
  have hFlow : Flow strict m.bones .runs m.unwindings false parked := hRuns ▸ h.flow
  have hHead := hTurn.closing
  have hHandler := hTurn.handler
  simp only [Machine.closing?, Machine.endsHandler?, hFocus] at hHead hHandler
  simp only [Machine.move, hFocus]
  unfold Machine.deliver
  unfold Machine.bones at hFlow
  cases hControl : m.control with
  | nil =>
      rw [hControl] at hFlow
      exact lands_of h.clear h.holds trivial
        (by rw [Machine.bones, Machine.control_goto, hControl]; exact hFlow.stop)
  | cons waiting below =>
      rw [hControl] at hFlow hHead hHandler
      cases waiting with
      | block word rest handles value =>
          exact h.complete hRuns rfl rfl (by simp [Machine.bones, hControl])
            rfl rfl trivial
      | body region =>
          obtain ⟨rest, rfl⟩ := List.head?_eq_some_iff.1 (hHead _ rfl)
          refine lands_perform fun context hContext => ?_
          obtain ⟨books, hKeeps⟩ := h.keeps hContext
          refine (keeps_claimEscape hKeeps).mono (fun answer after hAfter hOk => ?_)
            fun _ hError _ => hError.excused
          simp only
          rw [after_ok (show m.context = some context from hContext) hOk]
          obtain ⟨books, ⟨rfl, hAfter⟩ | ⟨exception, rfl, hAfter⟩⟩ := hAfter
          · exact lands_of h.clear ⟨_, hAfter.stored⟩ ⟨_, _, rfl⟩ (Flow.pop hFlow)
          · exact lands_of h.clear ⟨_, hAfter.stored⟩ ⟨_, rfl⟩ (Flow.pop hFlow)
      | handler region =>
          obtain ⟨caught, hTop⟩ := hHandler _ rfl
          obtain ⟨rest, rfl⟩ := List.head?_eq_some_iff.1 hTop
          exact lands_of h.clear h.holds ⟨_, _, rfl⟩ (Flow.pop hFlow)
      | guarding scope =>
          obtain ⟨rest, rfl⟩ := List.head?_eq_some_iff.1 (hHead _ rfl)
          refine lands_perform fun context hContext => ?_
          obtain ⟨books, hKeeps⟩ := h.keeps hContext
          obtain ⟨outer, rfl⟩ := hKeeps.scope_of_guardBody
          refine (keeps_popShield hKeeps).mono (fun _ after hAfter _ => ?_)
            fun _ => False.elim
          obtain ⟨flying, rest, books, rfl, hAfter⟩ := hAfter
          exact lands_of h.clear ⟨_, hAfter.stored⟩ ⟨_, rfl⟩ (Flow.unshield hFlow)
      | releasing => exact lands_of h.clear h.holds trivial (Flow.pop hFlow)
      | unwinding payload =>
          exact lands_of h.clear h.holds trivial (Flow.release hFlow (.inl rfl))
      | attempt resume => exact lands_of h.clear h.holds trivial (Flow.pop hFlow)
      | resuming payload => exact lands_of h.clear h.holds trivial (Flow.again hFlow)
      | loop times body =>
          cases times with
          | zero => exact lands_of h.clear h.holds trivial (Flow.pop hFlow)
          | succ times =>
              exact lands_of h.clear h.holds trivial (Flow.pop hFlow).push.push.run
      | message raising rest => exact lands_of h.clear h.holds trivial (Flow.pop hFlow)
      | thread auto =>
          cases auto with
          | false => exact lands_of h.clear h.holds trivial (Flow.pop hFlow).stop
          | true =>
              obtain ⟨hClear, hPopped, hUnwindings, hContext⟩ :=
                Machine.closeThread_clear (m := { m with control := below }) h.clear
              have hStops :
                  Flow strict
                  (({ m with control := below } : Machine ν).closeThread.2.control.map
                  Resumption.bone)
                  .stops ({ m with control := below } :
                    Machine ν).closeThread.2.unwindings false parked := by
                rw [hPopped, hUnwindings]
                exact (Flow.pop hFlow).stop
              exact lands_of hClear (h.holds_closed hBase (hHead _ rfl) hContext)
                trivial hStops

private theorem propagate {payload : Payload}
    (h : Sound base floor strict m ledger flying parked)
    (hBase : Spares base floor m ledger) (hTurn : m.InTurn ledger)
    (hForeign : ¬ m.StopsRaise) (hFocus : m.focus = .unwind payload) :
    Lands base floor strict (m.propagate payload) (m.move.apply ledger) := by
  have hFlow := h.flow
  rw [hFocus] at hFlow
  have hHead := hTurn.closing
  have hHandler := hTurn.handler
  simp only [Machine.closing?, Machine.endsHandler?, hFocus] at hHead hHandler
  simp only [Machine.move, hFocus]
  unfold Machine.propagate
  unfold Machine.bones at hFlow
  cases hControl : m.control with
  | nil =>
      rw [hControl] at hFlow
      exact lands_of h.clear h.holds trivial
        (by rw [Machine.bones, Machine.control_goto, hControl]; exact hFlow.stop)
  | cons waiting below =>
      rw [hControl] at hFlow hHead hHandler
      cases waiting with
      | block word rest handles value =>
          cases handles with
          | nil => exact lands_of h.clear h.holds trivial (Flow.pass hFlow)
          | cons handle handles =>
              exact lands_of h.clear h.holds trivial (Flow.hold hFlow)
      | body region =>
          obtain ⟨rest, rfl⟩ := List.head?_eq_some_iff.1 (hHead _ rfl)
          cases payload with
          | raise =>
              refine lands_perform fun context hContext => ?_
              obtain ⟨books, hKeeps⟩ := h.keeps hContext
              refine (keeps_catchInFlight hKeeps).mono
                (fun exception after hAfter hOk => ?_) fun _ hError hStrict => ?_
              · simp only
                rw [after_ok (show m.context = some context from hContext) hOk]
                obtain ⟨rfl, books, hAfter⟩ := hAfter
                exact lands_of h.clear ⟨_, hAfter.stored⟩ ⟨_, rfl⟩ (Flow.caught hFlow)
              · cases (Flow.flying_of_raise hFlow hStrict).symm.trans hError.1
          | panic text => exact h.passThrough rfl h.clear (Flow.pass hFlow)
          | termination termination => exact h.passThrough rfl h.clear (Flow.pass hFlow)
      | handler region =>
          obtain ⟨caught, hTop⟩ := hHandler _ rfl
          obtain ⟨rest, rfl⟩ := List.head?_eq_some_iff.1 hTop
          exact h.passThrough rfl h.clear (Flow.pass hFlow)
      | guarding scope =>
          change Lands base floor strict (Machine.guardFailed _ scope payload) _
          unfold Machine.guardFailed
          exact lands_fatal _ _ fun _ => .guardBody _ _
      | releasing => exact lands_of h.clear h.holds trivial (Flow.pass hFlow)
      | unwinding other =>
          exact lands_of h.clear h.holds trivial (Flow.lose hFlow)
      | attempt resume =>
          have hPanic : payload ≠ .raise := by
            rintro rfl
            exact hForeign ⟨hFocus, resume, below, hControl⟩
          cases resume with
          | none => exact lands_of h.clear h.holds trivial (Flow.attempt hFlow hPanic)
          | some between =>
              exact lands_of h.clear h.holds trivial
                (Flow.postpone (Flow.attempt hFlow hPanic) hPanic).push.run
      | resuming other => exact lands_of h.clear h.holds trivial (Flow.overtake hFlow)
      | loop times body => exact lands_of h.clear h.holds trivial (Flow.pass hFlow)
      | message raising rest => exact lands_of h.clear h.holds trivial (Flow.pass hFlow)
      | thread auto =>
          cases auto with
          | false => exact lands_of h.clear h.holds trivial (Flow.pass hFlow).stop
          | true =>
              obtain ⟨hClear, hPopped, hUnwindings, hContext⟩ :=
                Machine.dropThread_clear (m := { m with control := below }) h.clear
              have hStops :
                  Flow strict
                  (({ m with control := below } : Machine ν).dropThread.control.map
                  Resumption.bone)
                  .stops ({ m with control := below } : Machine ν).dropThread.unwindings
                    flying parked := by
                rw [hPopped, hUnwindings]
                exact (Flow.pass hFlow).stop
              exact lands_of hClear (h.holds_closed hBase (hHead _ rfl) hContext)
                trivial hStops

end Sound

/-- A step that closes in turn, and does not stop a raise, keeps a machine sound or
terminates the thread. -/
theorem lands_step_of_spares (h : Sound base floor strict m ledger flying parked)
    (hBase : Spares base floor m ledger) (hTurn : m.InTurn ledger)
    (hForeign : ¬ m.StopsRaise) (hStale : strict → ¬ m.LeavesStale) :
    Lands base floor strict m.step (m.move.apply ledger) := by
  have stays (hMove : m.move = .stay) {after : Machine ν}
    (hAfter : Lands base floor strict after ledger) :
      Lands base floor strict after (m.move.apply ledger) := by rwa [hMove]
  unfold Machine.step
  cases hFocus : m.focus with
  | next => exact stays (by simp only [Machine.move, hFocus]) (h.proceed hFocus)
  | exec stmt => exact h.exec hBase hTurn hFocus
  | complete value =>
      exact stays (by simp only [Machine.move, hFocus])
        (h.completed (by rw [hFocus]; rfl))
  | deliver value => exact h.deliver hBase hTurn hFocus
  | unwind payload => exact h.propagate hBase hTurn hForeign hFocus
  | offer region exception => exact h.offer hFocus
  | leave region outcome => exact h.leave hFocus
  | forward exception =>
      exact stays (by simp only [Machine.move, hFocus])
        (h.forward (by rw [hFocus]; rfl))
  | drop handle => exact h.drop hBase hTurn hStale hFocus
  | leaveScope scope => exact h.leaveScope hFocus
  | write raising pieces =>
      exact stays (by simp only [Machine.move, hFocus]) (h.write (by rw [hFocus]; rfl))
  | stopped how => exact stays (by simp only [Machine.move, hFocus]) (.inl ⟨_, _, h⟩)

/-- One step of a sound machine ends in a sound machine or in a failure that is
accounted for. -/
theorem lands_step (h : Sound base floor strict m ledger flying parked)
    (hBase : Untouched base floor ledger) (hTurn : m.InTurn ledger)
    (hForeign : ¬ m.StopsRaise) (hStale : strict → ¬ m.LeavesStale) :
    Lands base floor strict m.step (m.move.apply ledger) :=
  lands_step_of_spares h (.inl hBase) hTurn hForeign hStale

end Unwinding
