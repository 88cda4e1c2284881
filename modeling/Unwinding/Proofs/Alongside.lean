import Unwinding.Proofs.Sizes
import Unwinding.Proofs.Sound

/-!
# Machines of different sizes

Two machines that differ only in the sizes of their stacks, and in the configurations
that say how large the stacks are, do the same for as long as neither is refused a place
that the other one finds. `Machine.Beside` relates such machines, with a relation
between the capacities: any two, smaller ones and larger ones, or equal ones.
`Machine.Follows` says what one step of each comes to.

## Main results

* `Machine.follows_step` — after a step, the machines still differ in their sizes only,
  or one of them is terminated because a stack is full, and the other one has put more
  entries onto that stack than the first one can hold.
-/

namespace Unwinding

open Context

variable {ν : Type} {R : Limits → Limits → Prop}

/-! ## Machines side by side -/

/-- Two configurations that differ only in what they say of sizes. The memory that is
asked for in advance can be had with both, or with neither. -/
structure Config.Beside (R : Limits → Limits → Prop) (a b : Config) : Prop where
  limits : R a.limits b.limits
  messageLimit : a.messageLimit = b.messageLimit
  escapeKind : a.escapeKind = b.escapeKind
  terminator : a.terminator = b.terminator
  fitsMemory : a.fitsMemory = b.fitsMemory

/-- Two contexts that differ in their sizes only, with related capacities. -/
def Context.Related (R : Limits → Limits → Prop) (a b : Context) : Prop :=
  ∃ few many, R few many ∧ a.Beside few many b

namespace Machine

/-- The same thread with another configuration and another context. -/
def refit (m : Machine ν) (config : Option Config) (context : Option Context) :
    Machine ν :=
  { m with config, context }

/-- Two machines that differ only in the sizes of their stacks. -/
inductive Beside (R : Limits → Limits → Prop) (m : Machine ν) : Machine ν → Prop
  | refit {config : Option Config} {context : Option Context}
    (configs : Option.Rel (Config.Beside R) m.config config)
    (contexts : Option.Rel (Context.Related R) m.context context) :
        Beside R m (m.refit config context)

/-- The same machine with other code that waits. -/
def withControl (m : Machine ν) (control : List (Resumption ν)) (inUse : Bool) :
    Machine ν :=
  { m with control, inUse }

/-- A step of a machine came to this: it was refused a place on a stack that was full,
and the thread was terminated. -/
def Refused (m : Machine ν) (limits : Limits) (kind : StackKind) (after : Machine ν) :
    Prop :=
  ∃ control context, context.Sized limits ∧ context.depths.get kind = limits.get kind ∧
    after = ((m.withControl control false).store context).fatal
      (.capacityExceeded kind.name (limits.get kind))
      (some context.dump)

/-- A machine has more entries on a stack than it could have with other capacities. -/
def Past (m : Machine ν) (limits : Limits) (kind : StackKind) : Prop :=
  ∃ context, m.context = some context ∧ limits.get kind < context.depths.get kind

/-- What a step of each of two machines came to.

The two machines differ in sizes only, so they take the same step as long as neither is
refused. -/
inductive Follows (R : Limits → Limits → Prop) (m n after other : Machine ν) : Prop
  | beside (h : after.Beside R other)
  | left {few many : Limits} {kind : StackKind} (isAllowed : R few many)
      (isSmaller : few.get kind < many.get kind)
      (isRefused : m.Refused few kind after) (isPast : other.Past few kind)
  | right {few many : Limits} {kind : StackKind} (isAllowed : R few many)
      (isSmaller : many.get kind < few.get kind)
      (isRefused : n.Refused many kind other) (isPast : after.Past many kind)

variable {m n : Machine ν}

/-- A termination leaves the context as it is, so that a program can still look at
it. -/
theorem context_terminate (m : Machine ν) (termination : Termination) :
    (m.terminate termination).context = m.context := by
  unfold terminate installed
  cases m.config with
  | none => rfl
  | some config =>
      dsimp only
      cases config.terminator <;> dsimp only
      · split <;> rfl
      · rfl
      · rfl
      · rfl

private theorem context_fatal (m : Machine ν) (error : Error) (dump : Option String) :
    (m.fatal error dump).context = m.context :=
  context_terminate _ _

/-- What the machine makes of the outcome of a step on its context. -/
def settled {α : Type} (m : Machine ν) (next : Machine ν → α → Machine ν) :
    EStateM.Result Error Context α → Machine ν
  | .ok answer context => next (m.store context) answer
  | .error error context => (m.store context).fatal error (some context.dump)

/-- However a step on the context ends, the context it leaves is put back, with nothing
left to tell. -/
theorem context_settled {α : Type} {next : Machine ν → α → Machine ν}
    (hKeeps : ∀ m answer, (next m answer).context = m.context)
    (outcome : EStateM.Result Error Context α) :
    (m.settled next outcome).context = some { leftBehind outcome with journal := []
      } := by
  cases outcome with
  | ok answer context => exact hKeeps _ _
  | error error context => exact context_fatal _ _ _

section

variable {α : Type} {step : Step α} (next : Machine ν → α → Machine ν)

/-- A step on a context that is there and not in use is performed and its outcome
settled. -/
theorem perform_settled {context : Context} (hUse : m.inUse = false)
    (hContext : m.context = some context) :
    m.perform step next = m.settled next (step context) := by
  unfold perform
  rw [if_neg (by rw [hUse]; exact Bool.false_ne_true), hContext]
  dsimp only
  cases step context <;> rfl

/-- Without a context, a step on it terminates the thread. -/
theorem perform_missing (hUse : m.inUse = false) (hContext : m.context = none) :
    m.perform step next = m.fatal .contextMissing none := by
  unfold perform
  rw [if_neg (by rw [hUse]; exact Bool.false_ne_true), hContext]

/-- While a step is in progress, another one terminates the thread. -/
theorem perform_reentered (hUse : m.inUse = true) :
    m.perform step next = m.fatal (.corrupted .reentered) none := by
  unfold perform
  rw [if_pos hUse]

end

namespace Beside

/-! ## Small changes -/

private theorem goto (h : m.Beside R n) (focus : Focus ν) :
    (m.goto focus).Beside R (n.goto focus) := by
  cases h with
  | refit configs contexts => exact .refit configs contexts

private theorem emit (h : m.Beside R n) (event : Event ν) :
    (m.emit event).Beside R (n.emit event) := by
  cases h with
  | refit configs contexts => exact .refit configs contexts

private theorem push (h : m.Beside R n) (waiting : Resumption ν) :
    (m.push waiting).Beside R (n.push waiting) := by
  cases h with
  | refit configs contexts => exact .refit configs contexts

private theorem enterBlock (h : m.Beside R n) (body : List (Stmt ν)) :
    (m.enterBlock body).Beside R (n.enterBlock body) :=
  (h.push _).goto _

private theorem answer (h : m.Beside R n) (event : Event ν) :
    (m.answer event).Beside R (n.answer event) :=
  (h.emit event).goto _

/-- Machines side by side begin the same unwinding side by side. -/
theorem unwind (h : m.Beside R n) (payload : Payload) :
    (m.unwind payload).Beside R (n.unwind payload) := by
  cases h with
  | refit configs contexts => exact .refit configs contexts

private theorem caught (h : m.Beside R n) : m.caught.Beside R n.caught := by
  cases h with
  | refit configs contexts => exact .refit configs contexts

private theorem own (h : m.Beside R n) (name : String) (handle : Handle ν) :
    (m.own name handle).Beside R (n.own name handle) := by
  cases h with
  | refit configs contexts =>
      unfold Machine.own
      simp only [Machine.refit]
      split <;> exact .refit configs contexts

private theorem notes (h : m.Beside R n) (notices : List Notice) :
    (notices.foldl note m).Beside R (notices.foldl note n) := by
  induction notices generalizing m n with
  | nil => exact h
  | cons notice rest ih => exact ih (h.emit _)

/-! ## What is the same -/

private theorem registry (h : m.Beside R n) : m.registry = n.registry := by
  cases h with
  | refit configs contexts => rfl

private theorem inUse (h : m.Beside R n) : m.inUse = n.inUse := by
  cases h with
  | refit configs contexts => rfl

private theorem poisoned (h : m.Beside R n) : m.poisoned = n.poisoned := by
  cases h with
  | refit configs contexts => rfl

private theorem isPanicking (h : m.Beside R n) : m.isPanicking = n.isPanicking := by
  cases h with
  | refit configs contexts => rfl

private theorem control (h : m.Beside R n) : m.control = n.control := by
  cases h with
  | refit configs contexts => rfl

/-- What happens next is the same for machines side by side. Capacities never decide it,
as long as neither machine runs out of room. -/
theorem focus (h : m.Beside R n) : m.focus = n.focus := by
  cases h with
  | refit configs contexts => rfl

private theorem view (h : m.Beside R n) : m.view = n.view := by
  unfold Machine.view
  rw [h.registry]

/-- Either both threads have no context, or the contexts are side by side as well. -/
theorem context_cases (h : m.Beside R n) : m.context = none ∧ n.context = none ∨
    ∃ few many a b, R few many ∧ Context.Beside few many a b ∧ m.context = some a ∧
      n.context = some b := by
  cases h with
  | refit configs contexts =>
      simp only [Machine.refit]
      generalize m.context = own at contexts
      cases contexts with
      | none => exact .inl ⟨rfl, rfl⟩
      | some related =>
          obtain ⟨few, many, hAllowed, hBeside⟩ := related
          exact .inr ⟨few, many, _, _, hAllowed, hBeside, rfl, rfl⟩

private theorem config_cases (h : m.Beside R n) : m.config = none ∧ n.config = none ∨
    ∃ a b, Config.Beside R a b ∧ m.config = some a ∧ n.config = some b := by
  cases h with
  | refit configs contexts =>
      simp only [Machine.refit]
      generalize m.config = own at configs
      cases configs with
      | none => exact .inl ⟨rfl, rfl⟩
      | some related => exact .inr ⟨_, _, related, rfl, rfl⟩

/-- Machines that differ in their sizes may be given another configuration and another
context each. -/
theorem reset (h : m.Beside R n) {config other : Option Config}
    {context beside : Option Context}
    (hConfigs : Option.Rel (Config.Beside R) config other)
    (hContexts : Option.Rel (Context.Related R) context beside) :
    (m.refit config context).Beside R (n.refit other beside) := by
  cases h with
  | refit configs contexts => exact .refit hConfigs hContexts

/-- Their configurations are both there or both missing, and side by side. -/
theorem configs (h : m.Beside R n) :
    Option.Rel (Config.Beside R) m.config n.config := by
  cases h with
  | refit configs contexts => exact configs

private theorem contexts (h : m.Beside R n) :
    Option.Rel (Context.Related R) m.context n.context := by
  cases h with
  | refit configs contexts => exact contexts

/-- What does not look at sizes gets the same answer. -/
theorem asks {α : Type} (h : m.Beside R n) (look : Context → α)
    (hLook : ∀ context, look context.bare = look context) :
    m.ask look = n.ask look := by
  unfold ask
  rw [← h.inUse]
  split
  · rfl
  · obtain ⟨hLeft, hRight⟩ | ⟨few, many, a, b, -, hBeside, hLeft, hRight⟩ :=
      h.context_cases <;> rw [hLeft, hRight]
    exact congrArg Except.ok (hBeside.reads look hLook)

private theorem depths (h : m.Beside R n) : m.depths = n.depths :=
  h.asks Context.depths fun _ => rfl

private theorem current? (h : m.Beside R n) : m.current? = n.current? := by
  unfold Machine.current?
  rw [h.asks Context.current? fun _ => rfl]

private theorem trace (h : m.Beside R n) : m.trace = n.trace := by
  unfold Machine.trace
  rw [h.asks Context.trace fun _ => rfl]

/-- One has a context just if the other has. -/
theorem isInitialized (h : m.Beside R n) : m.isInitialized = n.isInitialized := by
  unfold Machine.isInitialized
  rw [← h.inUse]
  obtain ⟨hLeft, hRight⟩ | ⟨_, _, _, _, _, _, hLeft, hRight⟩ :=
    h.context_cases <;> rw [hLeft, hRight]
  rfl

private theorem state (h : m.Beside R n) : m.state = n.state := by
  unfold Machine.state
  rw [h.isInitialized, h.poisoned, h.depths, h.trace, h.current?, h.view, h.isPanicking]

/-! ## Termination -/

variable [Std.Refl R]

/-- A configuration is beside itself. -/
theorem config_refl (config : Config) : config.Beside R config :=
  ⟨Std.Refl.refl _, rfl, rfl, rfl, rfl⟩

private theorem installed (h : m.Beside R n) :
    m.installed.1.Beside R n.installed.1 ∧ m.installed.2.Beside R n.installed.2 := by
  unfold Machine.installed
  obtain ⟨hLeft, hRight⟩ | ⟨config, other, hConfig, hLeft, hRight⟩ :=
    h.config_cases <;> rw [hLeft, hRight]
  · exact ⟨config_refl {}, h.reset (.some (config_refl {})) h.contexts⟩
  · exact ⟨hConfig, h⟩

private theorem terminate (h : m.Beside R n) (termination : Termination) :
    (m.terminate termination).Beside R (n.terminate termination) := by
  unfold Machine.terminate
  have hPoisoned :
      ({ m with poisoned := true } : Machine ν).Beside R { n with poisoned := true
      } := by
    cases h with
    | refit configs contexts => exact .refit configs contexts
  obtain ⟨hConfig, hInstalled⟩ := hPoisoned.installed
  generalize ({ m with poisoned := true } : Machine ν).installed =
    left at hConfig hInstalled
  generalize ({ n with poisoned := true } : Machine ν).installed =
    right at hConfig hInstalled
  obtain ⟨config, m⟩ := left
  obtain ⟨other, n⟩ := right
  have hEmitted := hInstalled.emit (.terminated termination)
  have hExit (silent : Bool) {m n : Machine ν} (h : m.Beside R n) :
      (m.exit termination silent).Beside R (n.exit termination silent) := by
    cases h with
    | refit configs contexts => exact .refit configs contexts
  simp only at hConfig hInstalled hEmitted ⊢
  rw [← hConfig.terminator]
  cases config.terminator with
  | unwind =>
      dsimp only
      rw [← hEmitted.isPanicking]
      split
      · exact hEmitted.goto _
      · exact hEmitted.unwind _
  | halt => exact hEmitted.goto _
  | exit => exact hExit false hEmitted
  | exitSilently => exact hExit true hInstalled

private theorem fatal (h : m.Beside R n) (error : Error) (dump : Option String) :
    (m.fatal error dump).Beside R (n.fatal error dump) := by
  unfold Machine.fatal
  rw [h.registry]
  exact (h.emit _).terminate _

private theorem uncaught (h : m.Beside R n) (exception : Exception) :
    (m.uncaught exception).Beside R (n.uncaught exception) := by
  unfold Machine.uncaught
  rw [h.registry]
  exact (h.emit _).terminate _

/-! ## Steps on the context -/

omit [Std.Refl R] in
private theorem store (h : m.Beside R n) {few many : Limits} {a b : Context}
    (hAllowed : R few many) (hBeside : a.Beside few many b) :
    (m.store a).Beside R (n.store b) := by
  have hCleared :=
    hBeside.writes (fun context => { context with journal := [] }) (fun _ => rfl)
    fun _ _ hSized => { hSized with }
  cases h with
  | refit configs contexts =>
      unfold Machine.store
      rw [hBeside.reads Context.journal fun _ => rfl]
      exact .refit configs (.some ⟨few, many, hAllowed, hCleared⟩)

omit [Std.Refl R] in
private theorem withControl (h : m.Beside R n) (control : List (Resumption ν))
    (inUse : Bool) :
    (m.withControl control inUse).Beside R (n.withControl control inUse) := by
  cases h with
  | refit configs contexts => exact .refit configs contexts

/-- What both machines make of the outcomes of a step on their contexts. -/
theorem settled {α : Type} {pushes : Prop} {few many : Limits}
    {left right : EStateM.Result Error Context α} {next : Machine ν → α → Machine ν}
    (h : m.Beside R n) (control : List (Resumption ν)) (hAllowed : R few many)
    (hAbreast : Abreast few many pushes left right)
    (hNext : ∀ m n answer, m.Beside R n → (next m answer).Beside R (next n answer))
    (hKeeps : pushes → ∀ m answer, (next m answer).context = m.context) :
    ((m.withControl control false).settled next left).Beside R
    ((n.withControl control false).settled next right) ∨
      pushes ∧ Follows R m n ((m.withControl control false).settled next left)
        ((n.withControl control false).settled next right) := by
  have hHere := h.withControl control false
  have hFails {error : Error} {a b : Context} (hBeside : a.Beside few many b) :
      (((m.withControl control false).store a).fatal error (some a.dump)).Beside R
        (((n.withControl control false).store b).fatal error (some b.dump)) := by
    rw [hBeside.reads Context.dump fun _ => rfl]
    exact (hHere.store hAllowed hBeside).fatal _ _
  cases hAbreast with
  | answers hBeside => exact .inl (hNext _ _ _ (hHere.store hAllowed hBeside))
  | fails hasRoom hBeside => exact .inl (hFails hBeside)
  | refused isPush isFull isEqual hBeside =>
      rw [isEqual]
      exact .inl (hFails hBeside)
  | refusedLeft isPush isSized isFull isSmaller isPast =>
      exact .inr ⟨isPush, .left hAllowed isSmaller ⟨control, _, isSized, isFull, rfl⟩
        ⟨_, context_settled (hKeeps isPush) right, isPast⟩⟩
  | refusedRight isPush isSized isFull isSmaller isPast =>
      exact .inr ⟨isPush, .right hAllowed isSmaller ⟨control, _, isSized, isFull, rfl⟩
        ⟨_, context_settled (hKeeps isPush) left, isPast⟩⟩

/-- A step on the context, in machines that may have changed what waits before. -/
theorem performs {α : Type} {pushes : Prop} {step : Step α}
    {next : Machine ν → α → Machine ν} (h : m.Beside R n)
    (control : List (Resumption ν)) (inUse : Bool)
    (hStep : ∀ {few many a b}, Context.Beside few many a b →
      Abreast few many pushes (step a) (step b))
    (hNext : ∀ m n answer, m.Beside R n → (next m answer).Beside R (next n answer))
    (hKeeps : pushes → ∀ m answer, (next m answer).context = m.context) :
    ((m.withControl control inUse).perform step next).Beside R
    ((n.withControl control inUse).perform step next) ∨
      pushes ∧ Follows R m n ((m.withControl control inUse).perform step next)
        ((n.withControl control inUse).perform step next) := by
  cases inUse with
  | true =>
      left
      rw [perform_reentered (m := m.withControl control true) next rfl,
        perform_reentered (m := n.withControl control true) next rfl]
      exact (h.withControl control true).fatal _ _
  | false =>
      obtain ⟨hLeft, hRight⟩ | ⟨few, many, a, b, hAllowed, hBeside, hLeft, hRight⟩ :=
        h.context_cases
      · left
        rw [perform_missing (m := m.withControl control false) next rfl hLeft,
          perform_missing (m := n.withControl control false) next rfl hRight]
        exact (h.withControl control false).fatal _ _
      · rw [perform_settled (m := m.withControl control false) next rfl hLeft,
          perform_settled (m := n.withControl control false) next rfl hRight]
        exact h.settled control hAllowed (hStep hBeside) hNext hKeeps

/-- A step that pushes nothing goes the same way in both machines. -/
theorem perform {α : Type} {step : Step α} {next : Machine ν → α → Machine ν}
    (h : m.Beside R n)
    (hStep : ∀ {few many a b}, Context.Beside few many a b →
      Abreast few many False (step a) (step b))
    (hNext : ∀ m n answer, m.Beside R n → (next m answer).Beside R (next n answer)) :
    (m.perform step next).Beside R (n.perform step next) := by
  have hPerforms := h.performs m.control m.inUse hStep hNext False.elim
  have hControl := h.control
  have hUse := h.inUse
  obtain hDone | ⟨hFalse, -⟩ := hPerforms
  · rw [show n.withControl m.control m.inUse = n by rw [hControl, hUse]; rfl] at hDone
    exact hDone
  · exact hFalse.elim

/-- A step that may push something. -/
theorem pushesOver {α : Type} {step : Step α} {next : Machine ν → α → Machine ν}
    (h : m.Beside R n) (control : List (Resumption ν)) (inUse : Bool)
    (hStep : ∀ {few many a b}, Context.Beside few many a b →
      Abreast few many True (step a) (step b))
    (hNext : ∀ m n answer, m.Beside R n → (next m answer).Beside R (next n answer))
    (hKeeps : ∀ m answer, (next m answer).context = m.context) :
    Follows R m n ((m.withControl control inUse).perform step next)
      ((n.withControl control inUse).perform step next) := by
  obtain hDone | ⟨-, hFollows⟩ := h.performs control inUse hStep hNext fun _ => hKeeps
  · exact .beside hDone
  · exact hFollows

private theorem pushes {α : Type} {step : Step α} {next : Machine ν → α → Machine ν}
    (h : m.Beside R n)
    (hStep : ∀ {few many a b}, Context.Beside few many a b →
      Abreast few many True (step a) (step b))
    (hNext : ∀ m n answer, m.Beside R n → (next m answer).Beside R (next n answer))
    (hKeeps : ∀ m answer, (next m answer).context = m.context) :
    Follows R m n (m.perform step next) (n.perform step next) := by
  have hPushes := h.pushesOver m.control m.inUse hStep hNext hKeeps
  rw [show n.withControl m.control m.inUse = n by rw [h.control, h.inUse]; rfl]
    at hPushes
  exact hPushes

/-! ## The context of a thread -/

/-- A context is opened in both threads, with capacities that are related again. -/
theorem openThread (h : m.Beside R n) {limits others : Option Limits}
    (hLimits : ∀ a b, R a b → R (limits.getD a) (others.getD b)) :
    (m.openThread limits).1 = (n.openThread others).1 ∧
    (m.openThread limits).2.Beside R (n.openThread others).2 := by
  obtain ⟨hConfig, hInstalled⟩ := h.installed
  unfold Machine.openThread
  generalize m.installed = left at hConfig hInstalled
  generalize n.installed = right at hConfig hInstalled
  obtain ⟨config, m⟩ := left
  obtain ⟨other, n⟩ := right
  simp only at hConfig hInstalled ⊢
  rw [← hConfig.fitsMemory, ← hInstalled.isInitialized]
  split
  · exact ⟨rfl, hInstalled⟩
  · split
    · exact ⟨rfl, hInstalled⟩
    · refine ⟨rfl, Beside.emit ?_ _⟩
      have hNew : (Context.new config (limits.getD config.limits)).Related R
          (Context.new other (others.getD other.limits)) := by
        refine ⟨_, _, hLimits _ _ hConfig.limits, sized_new _ _, sized_new _ _, ?_⟩
        unfold Context.new
        rw [hConfig.messageLimit, hConfig.escapeKind]
        rfl
      cases hInstalled with
      | refit configs contexts => exact .refit configs (.some hNew)

omit [Std.Refl R] in
private theorem closed (h : m.Beside R n) :
    ({ m with context := none } : Machine ν).Beside R { n with context := none } :=
  h.reset h.configs .none

omit [Std.Refl R] in
private theorem closeThread (h : m.Beside R n) :
    m.closeThread.1 = n.closeThread.1 ∧ m.closeThread.2.Beside R n.closeThread.2 := by
  unfold Machine.closeThread
  by_cases hUse : m.inUse = true
  · rw [if_pos hUse, if_pos (h.inUse ▸ hUse)]
    exact ⟨rfl, h⟩
  · rw [if_neg hUse, if_neg (h.inUse ▸ hUse)]
    obtain ⟨hLeft, hRight⟩ | ⟨few, many, a, b, -, hBeside, hLeft, hRight⟩ :=
      h.context_cases <;> rw [hLeft, hRight]
    · exact ⟨rfl, h⟩
    · dsimp only
      rw [hBeside.reads Context.live fun _ => rfl, hBeside.depths,
        hBeside.reads Context.dump fun _ => rfl]
      split
      · exact ⟨rfl, h.closed.emit _⟩
      · exact ⟨rfl, h.closed.emit _⟩

omit [Std.Refl R] in
private theorem dropThread (h : m.Beside R n) : m.dropThread.Beside R n.dropThread := by
  obtain ⟨hOutcome, hClosed⟩ := h.closeThread
  have hPoisoned := h.poisoned
  have hUse := h.inUse
  unfold Machine.dropThread
  split
  · next hLeft =>
      rw [if_pos (hPoisoned.symm.trans hLeft)]
      split
      · next hInUse =>
          rw [if_pos (hUse.symm.trans hInUse)]
          exact h
      · next hIdle =>
          rw [if_neg (hUse ▸ hIdle)]
          exact h.closed
  · next hLeft =>
      rw [if_neg (hPoisoned ▸ hLeft)]
      generalize m.closeThread = left at hOutcome hClosed
      generalize n.closeThread = right at hOutcome hClosed
      obtain ⟨outcome, m⟩ := left
      obtain ⟨other, n⟩ := right
      obtain rfl : outcome = other := hOutcome
      cases outcome with
      | ok _ => exact hClosed
      | error error => exact hClosed.emit _

end Beside

/-! ## Handles -/

section

variable [Std.Refl R]

private theorem follows_acquire {name : String} {opening : Opening} {times : Nat}
    (h : m.Beside R n) :
    Follows R m n
      (m.acquire name opening fun m => m.goto (.exec (.acquire name opening times)))
      (n.acquire name opening fun m => m.goto (.exec (.acquire name opening times))) :=
        by
  unfold acquire
  cases opening with
  | thread limits =>
      have hSame (a b : Limits) (hAllowed : R a b) :
          R (limits.getD a) (limits.getD b) := by
        cases limits with
        | none => exact hAllowed
        | some limits => exact Std.Refl.refl _
      obtain ⟨hOpened, hBeside⟩ := h.openThread hSame
      dsimp only
      generalize m.openThread limits = left at hOpened hBeside
      generalize n.openThread limits = right at hOpened hBeside
      obtain ⟨outcome, m⟩ := left
      obtain ⟨other, n⟩ := right
      obtain rfl : outcome = other := hOpened
      cases outcome with
      | opened => exact .beside ((hBeside.own _ _).goto _)
      | refused error => exact .beside ((hBeside.emit _).goto _)
      | overflowed => exact .beside (hBeside.unwind _)
  | region site =>
      refine h.pushes abreast_enter (fun m n visit h => ?_)
        fun m visit => context_own m _ _
      rw [h.isPanicking]
      exact (h.own _ _).goto _
  | call site =>
      refine h.pushes abreast_enterCall (fun m n entry h => ?_)
        fun m entry => context_own m _ _
      rw [h.isPanicking]
      exact (h.own _ _).goto _
  | guards site =>
      dsimp only
      rw [h.isPanicking]
      exact .beside ((h.own _ _).goto _)

private theorem follows_registerGuard {name : String} {flavor : Flavor}
    {body : List (Stmt ν)} (h : m.Beside R n) :
    Follows R m n (m.registerGuard name flavor body)
      (n.registerGuard name flavor body) := by
  have registers {scope : Scope ν} {mark : Nat} {m n : Machine ν} (h : m.Beside R n) :
      let registered := scope.register mark flavor body
      (({ m with control := Handle.put name (.guards registered) m.control } :
        Machine ν).answer (.registered registered.count)).Beside R
      (({ n with control := Handle.put name (.guards registered) n.control } :
        Machine ν).answer (.registered registered.count)) := by
    cases h with
    | refit configs contexts => exact .refit configs contexts
  unfold registerGuard
  rw [← h.control]
  split
  · dsimp only
    split
    · exact .beside (registers h)
    · exact h.pushes abreast_openScope (fun _ _ _ h => registers h) fun _ _ => rfl
  · exact .beside (h.goto _)

private theorem follows_leaveScope {scope : Leaving ν} (h : m.Beside R n) :
    Follows R m n (m.leaveScope scope) (n.leaveScope scope) := by
  unfold leaveScope
  cases scope.bodies with
  | nil => exact .beside (h.perform abreast_closeScope fun _ _ _ h => h.goto _)
  | cons registered bodies =>
      obtain ⟨flavor, body⟩ := registered
      dsimp only
      split
      · exact h.pushes abreast_shield (fun _ _ _ h => (h.push _).enterBlock _)
          fun _ _ => rfl
      · exact .beside (h.goto _)

private theorem beside_guardFailed {scope : Leaving ν} {payload : Payload}
    (h : m.Beside R n) :
    (m.guardFailed scope payload).Beside R (n.guardFailed scope payload) := by
  unfold guardFailed
  dsimp only
  rw [h.caught.current?, h.caught.registry]
  exact h.caught.fatal _ _

private theorem beside_drop {handle : Handle ν} (h : m.Beside R n) :
    (m.drop handle).Beside R (n.drop handle) := by
  unfold drop
  rw [← h.poisoned, ← h.isPanicking]
  cases handle with
  | thread => exact h.dropThread.goto _
  | region visit inUnwinding =>
      dsimp only
      split
      · exact h.goto _
      · split
        · exact h.perform abreast_leave fun _ _ _ h => h.goto _
        · exact h.perform abreast_abandon fun _ _ _ h => h.goto _
  | call entry inUnwinding =>
      dsimp only
      split
      · exact h.goto _
      · exact h.perform abreast_leaveCall fun _ _ _ h => h.goto _
  | guards scope =>
      dsimp only
      split
      · exact h.goto _
      · split
        · exact h.goto _
        · exact h.goto _

private theorem beside_release {name : String} {how : Closing} (h : m.Beside R n) :
    (m.release name how).Beside R (n.release name how) := by
  unfold release
  rw [← h.control]
  split
  · exact h.goto _
  · next handle control hTake =>
      have hPopped : ({ m with control } : Machine ν).Beside R { n with control } := by
        cases h with
        | refit configs contexts => exact .refit configs contexts
      dsimp only
      split
      · exact hPopped.goto _
      · exact hPopped.perform abreast_leave fun _ _ _ h => h.goto _
      · obtain ⟨hOutcome, hClosed⟩ := hPopped.closeThread
        generalize ({ m with control } : Machine ν).closeThread =
          left at hOutcome hClosed
        generalize ({ n with control } : Machine ν).closeThread =
          right at hOutcome hClosed
        obtain ⟨outcome, m⟩ := left
        obtain ⟨other, n⟩ := right
        obtain rfl : outcome = other := hOutcome
        exact hClosed.answer _
      · exact (hPopped.push _).goto _

/-! ## Raises and regions -/

private theorem abreast_messageLimit {table : KindTable} {kind : Kind}
    {few many : Limits} {a b : Context} (h : a.Beside few many b) :
    Abreast few many False ((do
      let _ ← Context.ofExcept (table.entry kind)
      return (← get).messageLimit : Step Nat) a) ((do
      let _ ← Context.ofExcept (table.entry kind)
      return (← get).messageLimit : Step Nat) b) := by
  have hEntry {error : Error} (hError : table.entry kind = .error error) :
      ¬ NoRoom error := by
    rintro ⟨stack, limit, rfl⟩
    unfold KindTable.entry at hError
    split at hError
    · cases hError
    · split at hError <;> cases hError
  cases hFound : table.entry kind with
  | error error => exact .fails (hEntry hFound) h
  | ok entry =>
      refine abreast_then (.answers h : Abreast _ _ _ (.ok entry a) (.ok entry b))
        fun _ a b h => abreast_get ?_
      rw [h.reads Context.messageLimit fun _ => rfl]
      exact abreast_pure h

private theorem beside_raise {ref : KindRef} {site : Site} {message : List (Piece ν)}
    (h : m.Beside R n) :
    (m.raise ref site message).Beside R (n.raise ref site message) := by
  unfold raise
  rw [h.registry]
  split
  · exact h.fatal _ _
  · refine h.perform abreast_messageLimit fun m n limit h => ?_
    cases h with
    | refit configs contexts => exact .refit configs contexts

/-- What becomes of an exception that has been raised or sent on. -/
theorem beside_sent (h : m.Beside R n) (uncaught : Option Exception) : Beside R
    (match uncaught with
      | none => m.unwind .raise
      | some exception => m.uncaught exception)
    (match uncaught with
      | none => n.unwind .raise
      | some exception => n.uncaught exception) := by
  cases uncaught with
  | none => exact h.unwind _
  | some exception => exact h.uncaught _

private theorem context_sent (m : Machine ν) (uncaught : Option Exception) :
    Machine.context (match uncaught with
      | none => m.unwind .raise
      | some exception => m.uncaught exception) = m.context := by
  cases uncaught with
  | none => rfl
  | some exception => exact context_terminate _ _

private theorem follows_finishRaise {raising : Raising} (h : m.Beside R n) :
    Follows R m n (m.finishRaise raising) (n.finishRaise raising) := by
  unfold finishRaise
  rw [show ({ m with inUse := false } : Machine ν) =
    m.withControl m.control false from rfl,
    show ({ n with inUse := false } : Machine ν) = n.withControl m.control false by
    rw [h.control]; rfl]
  dsimp only
  rw [show (m.withControl m.control false).registry =
    (n.withControl m.control false).registry from h.registry]
  exact h.pushesOver m.control false abreast_raise
    (fun _ _ uncaught h => beside_sent h uncaught) context_sent

private theorem follows_write {raising : Raising} {pieces : List (Piece ν)}
    (h : m.Beside R n) :
    Follows R m n (m.write raising pieces) (n.write raising pieces) := by
  unfold write
  cases pieces with
  | nil => exact follows_finishRaise h
  | cons piece rest =>
      cases piece with
      | text text =>
          dsimp only
          split
          · exact .beside (h.goto _)
          · exact follows_finishRaise h
      | run body => exact .beside ((h.push _).enterBlock _)

private theorem follows_forward {exception : Exception} (h : m.Beside R n) :
    Follows R m n (m.forward exception) (n.forward exception) :=
  h.pushes abreast_forward (fun _ _ uncaught h => beside_sent h uncaught) context_sent

private theorem follows_protect {levels : Nat} {site : Site} {mode : Mode}
    {clauses : List (Clause ν)} {body : List (Stmt ν)} (h : m.Beside R n) :
    Follows R m n (m.protect levels site mode clauses body)
      (n.protect levels site mode clauses body) := by
  unfold protect
  refine h.pushes abreast_enter (fun m n visit h => ?_) fun m visit => ?_
  · dsimp only
    split
    · exact (h.push _).goto _
    · exact (h.push _).enterBlock _
  · dsimp only
    split <;> rfl

private theorem beside_offer {region : Protected ν} {exception : Exception}
    (h : m.Beside R n) :
    (m.offer region exception).Beside R (n.offer region exception) := by
  unfold offer
  rw [h.registry]
  dsimp only
  split
  · exact h.goto _
  · refine h.perform abreast_beginHandling fun m n _ h => ?_
    cases h with
    | refit configs contexts => exact .refit configs contexts

private theorem beside_leave {region : Protected ν}
    {outcome : Except Exception (Option ν)} (h : m.Beside R n) :
    (m.leave region outcome).Beside R (n.leave region outcome) := by
  unfold leave
  refine h.perform abreast_leave fun m n _ h => ?_
  cases outcome with
  | ok value => cases region.mode <;> exact (h.emit _).goto _
  | error exception =>
      cases region.mode with
      | run => exact h.goto _
      | attempt name =>
          cases h with
          | refit configs contexts => exact .refit configs contexts

private theorem beside_passThrough {region : Protected ν} {payload : Payload}
    (h : m.Beside R n) :
    (m.passThrough region payload).Beside R (n.passThrough region payload) := by
  unfold passThrough
  rw [← h.poisoned]
  split
  · exact h.goto _
  · exact h.perform abreast_leave fun _ _ _ h => h.goto _

/-! ## Statements -/

omit [Std.Refl R] in
private theorem beside_annotate {text : String} (h : m.Beside R n) :
    (m.exec (.annotate text)).Beside R (n.exec (.annotate text)) := by
  simp only [exec, ask]
  by_cases hUse : m.inUse = true
  · rw [if_pos hUse, if_pos (h.inUse ▸ hUse)]
    exact h.answer _
  · rw [if_neg hUse, if_neg (h.inUse ▸ hUse)]
    obtain ⟨hLeft, hRight⟩ | ⟨few, many, a, b, hAllowed, hBeside, hLeft, hRight⟩ :=
      h.context_cases <;> rw [hLeft, hRight]
    · exact h.answer _
    · have hFrames :=
        hBeside.writes
        (fun context => { context with frames := (context.frames.annotate text).2 })
        (fun _ => rfl) fun _ _ hSized =>
          { hSized with
            frames := ⟨hSized.frames.name, hSized.frames.limit, hSized.frames.within⟩ }
      have hDone : (a.frames.annotate text).1 = (b.frames.annotate text).1 :=
        hBeside.reads (fun context => (context.frames.annotate text).1) fun _ => rfl
      have hReset := h.reset h.configs (.some ⟨few, many, hAllowed, hFrames⟩)
      change Beside R
        ((m.refit m.config
        (some { a with frames := (a.frames.annotate text).2 })).answer
        (.annotated (a.frames.annotate text).1))
        ((n.refit n.config
          (some { b with frames := (b.frames.annotate text).2 })).answer
          (.annotated (b.frames.annotate text).1))
      rw [hDone]
      exact hReset.answer _

private theorem beside_configure {config : Config} (h : m.Beside R n) :
    (m.exec (.configure config)).Beside R (n.exec (.configure config)) := by
  simp only [exec]
  rw [show n.registry.table.size = m.registry.table.size by rw [h.registry]]
  obtain ⟨hLeft, hRight⟩ | ⟨_, _, -, hLeft, hRight⟩ :=
    h.config_cases <;> rw [hLeft, hRight]
  · exact ((h.reset (.some (Beside.config_refl config)) h.contexts).emit _).answer _
  · exact h.answer _

omit [Std.Refl R] in
private theorem beside_declare {entry : Registry.Entry} (h : m.Beside R n) :
    (m.exec (.declare entry)).Beside R (n.exec (.declare entry)) := by
  simp only [exec]
  rw [← h.registry]
  split
  · exact h.answer _
  · next registry _ _ =>
      refine Beside.answer (Beside.notes ?_ _) _
      cases h with
      | refit configs contexts => exact .refit configs contexts

private theorem follows_exec {stmt : Stmt ν} (h : m.Beside R n) :
    Follows R m n (m.exec stmt) (n.exec stmt) := by
  cases stmt with
  | acquire name opening times =>
      cases times with
      | zero => exact .beside (h.goto _)
      | succ times => exact follows_acquire h
  | protect levels site mode clauses body => exact follows_protect h
  | guard scope flavor body => exact follows_registerGuard h
  | annotate text => exact .beside (beside_annotate h)
  | configure config => exact .beside (beside_configure h)
  | declare entry => exact .beside (beside_declare h)
  | raise kind site message => exact .beside (beside_raise h)
  | release name how => exact .beside (beside_release h)
  | depths =>
      simp only [exec, h.depths]
      exact .beside (h.answer _)
  | state =>
      simp only [exec, h.state]
      exact .beside (h.answer _)
  | trace =>
      simp only [exec, h.trace]
      exact .beside (h.answer _)
  | current =>
      simp only [exec, h.current?, h.view]
      exact .beside (h.answer _)
  | printTrace =>
      simp only [exec, h.trace]
      cases h with
      | refit configs contexts => exact .beside (.refit configs contexts)
  | rethrow name =>
      cases h with
      | refit configs contexts =>
          simp only [exec, exception?, Machine.refit]
          split <;> exact .beside (.refit configs contexts)
  | loop times body =>
      cases times with
      | zero => exact .beside (h.goto _)
      | succ times => exact .beside ((h.push _).enterBlock _)
  | inspect name =>
      simp only [exec]
      rw [← h.control]
      split
      · exact .beside (h.answer _)
      · exact .beside (h.goto _)
  | say text => exact .beside (h.answer _)
  | value v => exact .beside (h.goto _)
  | panic text => exact .beside (h.unwind _)
  | block body => exact .beside (h.enterBlock _)
  | attempt body resume => exact .beside ((h.push _).enterBlock _)
  | _ =>
      cases h with
      | refit configs contexts => exact .beside (.refit configs contexts)

/-! ## What waits below a block -/

omit [Std.Refl R] in
private theorem beside_proceed (h : m.Beside R n) : m.proceed.Beside R n.proceed := by
  cases h with
  | refit configs contexts =>
      unfold proceed
      simp only [Machine.refit]
      split <;> exact .refit configs contexts

omit [Std.Refl R] in
private theorem beside_complete {value : Option (Option ν)} (h : m.Beside R n) :
    (m.complete value).Beside R (n.complete value) := by
  unfold complete
  rw [← h.control, ← h.depths]
  split
  · cases h with
    | refit configs contexts => exact .refit configs contexts
  · exact h.goto _

omit [Std.Refl R] in

/-- Machines side by side stay so when the same code is taken off what waits in both. -/
theorem beside_popped (h : m.Beside R n) (below : List (Resumption ν)) :
    ({ m with control := below } : Machine ν).Beside R { n with control := below } := by
  cases h with
  | refit configs contexts => exact .refit configs contexts

private theorem follows_claimEscape {region : Protected ν} {value : Option ν}
    (h : m.Beside R n) (below : List (Resumption ν)) :
    Follows R m n
      (({ m with control := below } : Machine ν).perform
        (Context.claimEscape m.registry.slots region.visit) fun m escape =>
        match escape with
        | none => m.goto (.leave region (.ok value))
        | some exception => m.goto (.offer region exception))
      (({ n with control := below } : Machine ν).perform
        (Context.claimEscape m.registry.slots region.visit) fun m escape =>
        match escape with
        | none => m.goto (.leave region (.ok value))
        | some exception => m.goto (.offer region exception)) := by
  rw [show ({ n with control := below } : Machine ν) = n.withControl below m.inUse by
    rw [h.inUse]; rfl]
  refine h.pushesOver below m.inUse abreast_claimEscape (fun m n escape h => ?_)
    fun m escape => ?_
  · cases escape with
    | none => exact h.goto _
    | some exception => exact h.goto _
  · cases escape <;> rfl

private theorem follows_deliver {value : Option ν} (h : m.Beside R n) :
    Follows R m n (m.deliver value) (n.deliver value) := by
  unfold deliver
  rw [← h.control, ← h.registry]
  cases m.control with
  | nil => exact .beside (h.goto _)
  | cons waiting below =>
      have hPopped := beside_popped h below
      cases waiting with
      | block word rest handles old => exact .beside (h.goto _)
      | body region => exact follows_claimEscape h below
      | guarding scope =>
          exact .beside (hPopped.perform abreast_popDispatch fun _ _ _ h => h.goto _)
      | thread auto =>
          cases auto with
          | false => exact .beside (hPopped.goto _)
          | true =>
              obtain ⟨hOutcome, hClosed⟩ := hPopped.closeThread
              simp only [if_true]
              rw [hOutcome]
              exact .beside (hClosed.goto _)
      | handler region => exact .beside (hPopped.goto _)
      | releasing => exact .beside (hPopped.goto _)
      | unwinding payload => exact .beside (hPopped.goto _)
      | attempt resume => exact .beside (hPopped.answer _)
      | resuming payload => exact .beside (hPopped.unwind _)
      | message raising rest => exact .beside (hPopped.goto _)
      | loop times body =>
          cases times with
          | zero => exact .beside (hPopped.goto _)
          | succ times => exact .beside ((hPopped.push _).enterBlock _)

private theorem beside_propagate {payload : Payload} (h : m.Beside R n) :
    (m.propagate payload).Beside R (n.propagate payload) := by
  unfold propagate
  rw [← h.control]
  cases m.control with
  | nil => exact h.goto _
  | cons waiting below =>
      have hPopped := beside_popped h below
      cases waiting with
      | block word rest handles value =>
          cases handles with
          | nil => exact hPopped.goto _
          | cons first older => exact ((hPopped.push _).push _).goto _
      | body region =>
          cases payload with
          | raise =>
              exact hPopped.caught.perform abreast_catchInFlight fun _ _ _ h => h.goto _
          | panic text => exact beside_passThrough hPopped
          | termination termination => exact beside_passThrough hPopped
      | handler region => exact beside_passThrough hPopped
      | guarding scope => exact beside_guardFailed hPopped
      | releasing => exact hPopped.goto _
      | unwinding other => exact hPopped.goto _
      | attempt resume =>
          have hStopped := hPopped.caught.emit (.unwound payload)
          cases resume with
          | none => exact hStopped.goto _
          | some between => exact (hStopped.push _).enterBlock _
      | resuming other => exact hPopped.goto _
      | loop times body => exact hPopped.goto _
      | message raising rest => exact (hPopped.withControl below false).goto _
      | thread auto =>
          cases auto with
          | false => exact hPopped.goto _
          | true => exact hPopped.dropThread.goto _

/-- After a step of each, two machines that differ in their sizes still do, or one of
them was refused a place that the other one found. -/
theorem follows_step (h : m.Beside R n) : Follows R m n m.step n.step := by
  unfold step
  rw [← h.focus]
  cases m.focus with
  | next => exact .beside (beside_proceed h)
  | exec stmt => exact follows_exec h
  | complete value => exact .beside (beside_complete h)
  | deliver value => exact follows_deliver h
  | unwind payload => exact .beside (beside_propagate h)
  | offer region exception => exact .beside (beside_offer h)
  | leave region outcome => exact .beside (beside_leave h)
  | forward exception => exact follows_forward h
  | drop handle => exact .beside (beside_drop h)
  | leaveScope scope => exact follows_leaveScope h
  | write raising pieces => exact follows_write h
  | stopped how => exact .beside h

end

end Machine

end Unwinding
