import Unwinding.Machine.Progress
import Unwinding.Proofs.Restoration

/-!
# The end of a thread

A thread that cannot go on calls the terminator of its process. A terminator that
unwinds sends the thread through all the code that waits, which is code of the program
and of the runtime: regions, traced calls, guard scopes and the handle of the thread are
given up on the way, and each of them has to leave the stacks alone. All but one do. A
guard body that is left by any unwinding counts as failed, the unwinding of a
termination included, and so the terminator is called again.

The unwinding of a termination is described by its states (`Machine.Fading`): nothing
but unwinding goes on in them, so no clause and no body begins. What such a state has
kept of the moment of the call is `Machine.Fades`, which one step preserves
(`Fades.step`). Up to the call, no step speaks of a termination (`goes_step`).

## Main results

* `terminates_once` : in every run the terminator is called with what was found first,
  and then only for the guard bodies that ran at that moment; meanwhile no handler and
  no guard body begins and no stack changes.
* `terminatedTwice_fails` : a guard body that terminates the thread has it terminated
  twice.
-/

namespace Unwinding

open Context

variable {ν : Type}

/-! ## Notions -/

/-- A handler or a guard body that runs. -/
def Resumption.isBody : Resumption ν → Bool
  | .handler _ => true
  | .guarding _ => true
  | _ => false

/-- Whether a guard body waits here. -/
def Resumption.isGuardBody : Resumption ν → Bool
  | .guarding _ => true
  | _ => false

/-- The handlers and guard bodies that run, innermost first. -/
def bodiesOf (control : List (Resumption ν)) : List (Resumption ν) :=
  control.filter Resumption.isBody

/-- The number of guard bodies that run. -/
def guardBodiesOf (control : List (Resumption ν)) : Nat :=
  (bodiesOf control).countP Resumption.isGuardBody

/-- What the terminator was called with. -/
def Event.termination? : Event ν → Option Termination
  | .terminated termination => some termination
  | _ => none

/-- A history that goes on with so many further calls of the terminator, each for a
guard body that has failed. -/
inductive Recalls (before : List (Event ν)) : List (Event ν) → Nat → Prop
  | none : Recalls before before 0
  | again {events : List (Event ν)} {calls : Nat}
      (earlier : Recalls before events calls) (site : Site)
      (reason : String) (termination : Termination) :
      Recalls before
        (.terminated termination ::
          .notice (.fatal (.corrupted (.guardBodyFailed site reason))) :: events)
          (calls + 1)

namespace Machine

/-- The program is about to stop the unwinding of a termination. -/
def StopsTermination (m : Machine ν) : Prop :=
  (∃ termination, m.focus = .unwind (.termination termination)) ∧ ∃ resume below,
    m.control = .attempt resume :: below

instance (m : Machine ν) : Decidable m.StopsTermination :=
  decidable_of_iff
    ((match m.focus, m.control with
      | .unwind (.termination _), .attempt _ :: _ => true
      | _, _ => false) = true) (by
    constructor
    · intro h
      split at h
      · next hFocus hControl => exact ⟨⟨_, hFocus⟩, _, _, hControl⟩
      · cases h
    · rintro ⟨⟨termination, hFocus⟩, resume, below, hControl⟩
      rw [hFocus, hControl])

/-- The process has a terminator that unwinds. -/
def TerminatorUnwinds (m : Machine ν) : Prop :=
  ∃ config, m.config = some config ∧ config.terminator = .unwind

/-- Nothing but the unwinding of a termination goes on, or nothing at all. -/
inductive Fading (m : Machine ν) : Prop
  | unwinds {termination : Termination}
    (focus : m.focus = .unwind (.termination termination))
  | drops {handle : Handle ν} {termination : Termination} {below : List (Resumption ν)}
      (focus : m.focus = .drop handle)
      (control : m.control = .unwinding (.termination termination) :: below)
  | dropped {termination : Termination} {below : List (Resumption ν)}
      (focus : m.focus = .next)
      (control : m.control = .unwinding (.termination termination) :: below)
  | stopped {how : Stop ν} (focus : m.focus = .stopped how)

/-- What a thread has kept of the moment in which the terminator was called.

A thread that has been terminated does no more bookkeeping, so its context changes only
when it goes. -/
structure Fades (first m : Machine ν) : Prop where
  poisoned : m.poisoned = true
  config : m.config = first.config
  fading : m.Fading
  context : m.context = first.context ∨ m.context = none
  bodies : bodiesOf m.control <:+ bodiesOf first.control
  events : ∃ calls, Recalls first.events m.events calls ∧
    calls + guardBodiesOf m.control ≤ guardBodiesOf first.control

/-! ## The unwinding of a termination -/

private theorem bodiesOf_cons_suffix (waiting : Resumption ν)
    (below : List (Resumption ν)) :
    bodiesOf below <:+ bodiesOf (waiting :: below) := by
  unfold bodiesOf
  rw [List.filter_cons]
  split
  · exact List.suffix_cons _ _
  · exact List.suffix_refl _

private theorem guardBodiesOf_le {control after : List (Resumption ν)}
    (h : bodiesOf after <:+ bodiesOf control) :
    guardBodiesOf after ≤ guardBodiesOf control :=
  h.sublist.countP_le

private theorem guardBodiesOf_guarding (scope : Leaving ν)
    (below : List (Resumption ν)) :
    guardBodiesOf (.guarding scope :: below) = guardBodiesOf below + 1 :=
  List.countP_cons_of_pos rfl

/-! ## A call of the terminator -/

/-- What a call of a terminator that unwinds makes of a state, and what it leaves
alone. -/
structure Called (m after : Machine ν) (cause : Notice) (termination : Termination) :
    Prop where
  poisoned : after.poisoned = true
  config : after.config = m.config
  fading : after.Fading
  context : after.context = m.context
  control : after.control = m.control
  events : after.events = .terminated termination :: .notice cause :: m.events

/-- A terminator that unwinds calls the thread to its end. A thread that unwinds already
has nowhere to go and halts. -/
private theorem called_terminate {m : Machine ν} (h : m.TerminatorUnwinds)
    (cause : Notice) (termination : Termination) :
    m.Called ((m.note cause).terminate termination) cause termination := by
  obtain ⟨config, hConfig, hUnwind⟩ := h
  have hInstalled : { m.note cause with poisoned := true }.installed =
    (config, { m.note cause with poisoned := true }) := by
    simp only [installed, note, emit, hConfig]
  unfold terminate
  rw [hInstalled]
  simp only [hUnwind]
  split
  · exact ⟨rfl, rfl, .stopped rfl, rfl, rfl, rfl⟩
  · exact ⟨rfl, rfl, .unwinds rfl, rfl, rfl, rfl⟩

private theorem called_fatal {m : Machine ν} (h : m.TerminatorUnwinds) (error : Error)
    (dump : Option String) :
    ∃ kind report, m.Called (m.fatal error dump) (.fatal error)
      ⟨.fatal, kind, report⟩ :=
  ⟨_, _, called_terminate h _ _⟩

private theorem called_uncaught {m : Machine ν} (h : m.TerminatorUnwinds)
    (exception : Exception) :
    ∃ text report, m.Called (m.uncaught exception) (.uncaught text)
      ⟨.uncaught, exception.kind, report⟩ :=
  ⟨_, _, called_terminate h _ _⟩

/-! ## The unwinding of a termination -/

section

variable {first m : Machine ν} {below : List (Resumption ν)} {termination : Termination}

private theorem TerminatorUnwinds.of_config {other : Machine ν}
    (h : first.TerminatorUnwinds) (hConfig : other.config = first.config) :
    other.TerminatorUnwinds := by
  obtain ⟨config, hInstalled, hUnwind⟩ := h
  exact ⟨config, hConfig.trans hInstalled, hUnwind⟩

/-- A fading state that adds nothing to the history. -/
theorem Fades.goesOn (h : Fades first m) {after : Machine ν}
    (hPoisoned : after.poisoned = true) (hConfig : after.config = m.config)
    (hEvents : after.events = m.events)
    (hContext : after.context = m.context ∨ after.context = none)
    (hBodies : bodiesOf after.control <:+ bodiesOf m.control) (hFading : after.Fading) :
    Fades first after where
  poisoned := hPoisoned
  config := hConfig.trans h.config
  fading := hFading
  context := by
    rcases hContext with hSame | hNone
    · rw [hSame]
      exact h.context
    · exact .inr hNone
  bodies := hBodies.trans h.bodies
  events := by
    obtain ⟨calls, hCalls, hLe⟩ := h.events
    exact ⟨calls, hEvents ▸ hCalls, by have := guardBodiesOf_le hBodies; omega⟩

/-- The unwinding leaves a guard body, and the terminator is called for it. -/
theorem Fades.guardFailed (h : Fades first m) (hUnwinds : first.TerminatorUnwinds)
    {scope : Leaving ν} (hControl : m.control = .guarding scope :: below)
    (payload : Payload) :
    Fades first (({ m with control := below } : Machine ν).guardFailed scope payload) :=
      by
  obtain ⟨reason, hFatal⟩ : ∃ reason,
      ({ m with control := below } : Machine ν).guardFailed scope payload =
      ({ m with control := below } : Machine ν).caught.fatal
        (.corrupted (.guardBodyFailed scope.site reason)) none := ⟨_, rfl⟩
  have hTerminator :
      ({ m with control := below } : Machine ν).caught.TerminatorUnwinds :=
    hUnwinds.of_config h.config
  obtain ⟨kind, report, hCalled⟩ :=
    called_fatal hTerminator (.corrupted (.guardBodyFailed scope.site reason)) none
  obtain ⟨calls, hCalls, hLe⟩ := h.events
  rw [hControl, guardBodiesOf_guarding] at hLe
  have hBelow : bodiesOf below <:+ bodiesOf first.control :=
    (hControl ▸ bodiesOf_cons_suffix _ _ : bodiesOf below <:+ bodiesOf m.control).trans
      h.bodies
  rw [hFatal]
  exact {
    poisoned := hCalled.poisoned
    config := hCalled.config.trans h.config
    fading := hCalled.fading
    context := by rw [hCalled.context]; exact h.context
    bodies := by rw [hCalled.control]; exact hBelow
    events := by
      refine ⟨calls + 1, by
        rw [hCalled.events]; exact hCalls.again scope.site reason _, ?_⟩
      rw [hCalled.control]
      change calls + 1 + guardBodiesOf below ≤ _
      omega }

/-- The handle of the context takes the whole context away, unless it is in use. -/
theorem dropThread_of_poisoned {m : Machine ν} (h : m.poisoned = true) :
    ∃ context, m.dropThread = { m with context } ∧
      (context = m.context ∨ context = none) := by
  unfold dropThread
  rw [if_pos h]
  split
  · exact ⟨m.context, rfl, .inl rfl⟩
  · exact ⟨none, rfl, .inr rfl⟩

private theorem Fades.propagate (h : Fades first m) (hUnwinds : first.TerminatorUnwinds)
    (hFocus : m.focus = .unwind (.termination termination))
    (hStops : ¬ m.StopsTermination) :
    Fades first (m.propagate (.termination termination)) := by
  cases hControl : m.control with
  | nil =>
      simp only [Machine.propagate, hControl]
      exact h.goesOn h.poisoned rfl rfl (.inl rfl) (List.suffix_refl _) (.stopped rfl)
  | cons waiting below =>
      have hBelow : bodiesOf below <:+ bodiesOf m.control :=
        hControl ▸ bodiesOf_cons_suffix _ _
      cases waiting with
      | block word rest handles value =>
          cases handles with
          | nil =>
              simp only [Machine.propagate, hControl]
              exact h.goesOn h.poisoned rfl rfl (.inl rfl) hBelow (.unwinds rfl)
          | cons handle handles =>
              simp only [Machine.propagate, hControl]
              exact h.goesOn h.poisoned rfl rfl (.inl rfl) hBelow (.drops rfl rfl)
      | attempt resume => exact absurd ⟨⟨_, hFocus⟩, _, _, hControl⟩ hStops
      | guarding scope =>
          simp only [Machine.propagate, hControl]
          exact h.guardFailed hUnwinds hControl _
      | unwinding payload =>
          simp only [Machine.propagate, hControl]
          exact h.goesOn h.poisoned rfl rfl (.inl rfl) hBelow (.stopped rfl)
      | thread auto =>
          simp only [Machine.propagate, hControl]
          cases auto with
          | false => exact h.goesOn h.poisoned rfl rfl (.inl rfl) hBelow (.stopped rfl)
          | true =>
              obtain ⟨context, hDrop, hContext⟩ :=
                dropThread_of_poisoned (m := ({ m with control := below } : Machine ν))
                  h.poisoned
              simp only [if_true, hDrop]
              exact h.goesOn h.poisoned rfl rfl hContext hBelow (.stopped rfl)
      | body region | handler region =>
          simp only [Machine.propagate, hControl, passThrough]
          rw [if_pos h.poisoned]
          exact h.goesOn h.poisoned rfl rfl (.inl rfl) hBelow (.unwinds rfl)
      | releasing | resuming | loop | message =>
          simp only [Machine.propagate, hControl]
          exact h.goesOn h.poisoned rfl rfl (.inl rfl) hBelow (.unwinds rfl)

/-- A handle of a terminated thread is dropped without any bookkeeping. -/
theorem Fades.drop (h : Fades first m) {handle : Handle ν}
    (hControl : m.control = .unwinding (.termination termination) :: below) :
    Fades first (m.drop handle) := by
  have hNext : Fades first (m.goto .next) :=
    h.goesOn h.poisoned rfl rfl (.inl rfl) (List.suffix_refl _) (.dropped rfl hControl)
  cases handle with
  | thread =>
      obtain ⟨context, hDrop, hContext⟩ := dropThread_of_poisoned h.poisoned
      simp only [Machine.drop, hDrop]
      exact h.goesOn h.poisoned rfl rfl hContext (List.suffix_refl _)
        (.dropped rfl hControl)
  | region visit inUnwinding | call entry inUnwinding =>
      simp only [Machine.drop]
      rw [if_pos h.poisoned]
      exact hNext
  | guards scope =>
      simp only [Machine.drop]
      split
      · exact hNext
      · rw [if_pos h.poisoned]
        exact hNext

/-- One step of a fading thread. -/
theorem Fades.step (h : Fades first m) (hUnwinds : first.TerminatorUnwinds)
    (hStops : ¬ m.StopsTermination) :
    Fades first m.step := by
  unfold Machine.step
  cases h.fading with
  | unwinds hFocus =>
      rw [hFocus]
      exact h.propagate hUnwinds hFocus hStops
  | drops hFocus hControl =>
      rw [hFocus]
      exact h.drop hControl
  | dropped hFocus hControl =>
      rw [hFocus]
      simp only [proceed, hControl]
      have hBelow : bodiesOf _ <:+ bodiesOf m.control :=
        hControl ▸ bodiesOf_cons_suffix _ _
      exact h.goesOn h.poisoned rfl rfl (.inl rfl) hBelow (.unwinds rfl)
  | stopped hFocus =>
      rw [hFocus]
      exact h

end

/-! ## Up to the call -/

/-- What goes on between two states without the terminator. -/
structure Quiet (m after : Machine ν) : Prop where
  clear : m.poisoned = false → after.poisoned = false
  config : ∀ config, m.config = some config → after.config = some config
  silent : ∀ termination, .terminated termination ∈ after.events →
    .terminated termination ∈ m.events

/-- The terminator is called with what was found: a failure of the bookkeeping, or an
exception that nothing catches. -/
inductive Finds (m : Machine ν) : Machine ν → Prop
  | failure (error : Error) (dump : Option String) : Finds m (m.fatal error dump)
  | exception (exception : Exception) : Finds m (m.uncaught exception)

/-- A step goes on quietly, or it ends in a call of the terminator.

The call is the last thing that is said of a step here. What follows it is the business
of `Fades`. -/
def Goes (m after : Machine ν) : Prop :=
  m.Quiet after ∨ ∃ last, m.Quiet last ∧ last.Finds after

section

variable {m after : Machine ν}

private theorem Quiet.refl (m : Machine ν) : m.Quiet m :=
  ⟨id, fun _ => id, fun _ => id⟩

private theorem Quiet.trans {last : Machine ν} (h : m.Quiet after)
    (hLater : after.Quiet last) : m.Quiet last :=
  ⟨fun hClear => hLater.clear (h.clear hClear),
    fun config hConfig => hLater.config config (h.config config hConfig),
    fun termination hMem => h.silent termination (hLater.silent termination hMem)⟩

/-- Events that are no calls of the terminator are added. -/
theorem quiet_of_events (added : List (Event ν))
    (hClear : m.poisoned = false → after.poisoned = false)
    (hConfig : ∀ config, m.config = some config → after.config = some config)
    (hEvents : after.events = added ++ m.events)
    (hAdded : ∀ termination, Event.terminated termination ∉ added) : m.Quiet after :=
  ⟨hClear, hConfig, fun termination hMem =>
    (List.mem_append.1 (hEvents ▸ hMem)).resolve_left (hAdded termination)⟩

private theorem quiet_same (hPoisoned : after.poisoned = m.poisoned)
    (hConfig : after.config = m.config) (hEvents : after.events = m.events) :
    m.Quiet after :=
  quiet_of_events [] (by rw [hPoisoned]; exact id) (by rw [hConfig]; exact fun _ => id)
    hEvents (by simp)

private theorem quiet_emit (m : Machine ν) {event : Event ν}
    (h : ∀ termination, Event.terminated termination ≠ event) :
    m.Quiet (m.emit event) :=
  quiet_of_events [event] id (fun _ => id) rfl (by simpa using h)

private theorem quiet_store (m : Machine ν) (context : Context) :
    m.Quiet (m.store context) :=
  quiet_of_events _ id (fun _ => id) rfl (by simp)

private theorem quiet_answer (m : Machine ν) {event : Event ν}
    (h : ∀ termination, Event.terminated termination ≠ event) :
    m.Quiet (m.answer event) :=
  (quiet_emit m h).trans (quiet_same rfl rfl rfl)

private theorem Quiet.goes (h : m.Quiet after) : m.Goes after :=
  .inl h

private theorem Quiet.goes_trans {last : Machine ν} (h : m.Quiet after)
    (hLater : after.Goes last) : m.Goes last := by
  rcases hLater with hQuiet | ⟨found, hQuiet, hFinds⟩
  · exact .inl (h.trans hQuiet)
  · exact .inr ⟨found, h.trans hQuiet, hFinds⟩

private theorem goes_same (hPoisoned : after.poisoned = m.poisoned)
    (hConfig : after.config = m.config) (hEvents : after.events = m.events) :
    m.Goes after :=
  (quiet_same hPoisoned hConfig hEvents).goes

private theorem goes_emit (event : Event ν)
    (h : ∀ termination, Event.terminated termination ≠ event)
    (hPoisoned : after.poisoned = m.poisoned) (hConfig : after.config = m.config)
    (hEvents : after.events = event :: m.events) :
    m.Goes after :=
  (quiet_of_events [event] (by rw [hPoisoned]; exact id)
    (by rw [hConfig]; exact fun _ => id) hEvents
    (by simpa using h)).goes

private theorem goes_fatal (m : Machine ν) (error : Error) (dump : Option String) :
    m.Goes (m.fatal error dump) :=
  .inr ⟨m, .refl m, .failure error dump⟩

private theorem goes_uncaught (m : Machine ν) (exception : Exception) :
    m.Goes (m.uncaught exception) :=
  .inr ⟨m, .refl m, .exception exception⟩

private theorem goes_perform {α : Type} {step : Step α}
    {next : Machine ν → α → Machine ν}
    (hNext : ∀ context answer, (m.store context).Goes (next (m.store context) answer)) :
    m.Goes (m.perform step next) := by
  unfold perform
  split
  · exact goes_fatal m _ _
  · split
    · exact goes_fatal m _ _
    · split
      · exact (quiet_store m _).goes_trans (hNext _ _)
      · exact (quiet_store m _).goes_trans (goes_fatal _ _ _)

/-! ### Each step -/

private theorem quiet_installed (m : Machine ν) : m.Quiet m.installed.2 := by
  unfold installed
  split
  · exact .refl m
  · next hNone =>
      refine ⟨id, fun config hConfig => ?_, fun _ => id⟩
      rw [hNone] at hConfig
      cases hConfig

private theorem quiet_openThread (m : Machine ν) (limits : Option Limits) :
    m.Quiet (m.openThread limits).2 := by
  unfold openThread
  dsimp only
  split
  · exact quiet_installed m
  · split
    · exact quiet_installed m
    · refine (quiet_installed m).trans
        (quiet_of_events [.notice .contextCreated] ?_ (fun _ => id) rfl (by simp))
      exact fun _ => rfl

private theorem quiet_closeThread (m : Machine ν) : m.Quiet m.closeThread.2 := by
  unfold closeThread
  split
  · exact .refl m
  · split
    · exact .refl m
    · dsimp only
      split
      · exact quiet_of_events [.notice .contextClosed] id (fun _ => id) rfl (by simp)
      · exact quiet_of_events [.notice _] id (fun _ => id) rfl (by simp)

private theorem quiet_dropThread (m : Machine ν) : m.Quiet m.dropThread := by
  unfold dropThread
  split
  · split
    · exact .refl m
    · exact quiet_same rfl rfl rfl
  · have hClose := quiet_closeThread m
    split
    · next h => rwa [h] at hClose
    · next h =>
        rw [h] at hClose
        exact hClose.trans (quiet_emit _ (by simp))

private theorem quiet_own (m : Machine ν) (name : String) (handle : Handle ν) :
    m.Quiet (m.own name handle) := by
  unfold own
  split
  · exact quiet_same rfl rfl rfl
  · exact .refl m

private theorem goes_acquire (m : Machine ν) (name : String) (opening : Opening)
    {next : Machine ν → Machine ν} (hNext : ∀ m, Quiet m (next m)) :
    m.Goes (m.acquire name opening next) := by
  have hOwn (m : Machine ν) (handle : Handle ν) : m.Goes (next (m.own name handle)) :=
    ((quiet_own m name handle).trans (hNext _)).goes
  cases opening with
  | thread limits =>
      have hOpen := quiet_openThread m limits
      simp only [acquire]
      split
      · next h =>
          rw [h] at hOpen
          exact hOpen.goes_trans (hOwn _ _)
      · next h =>
          rw [h] at hOpen
          exact (hOpen.trans ((quiet_emit _ (by simp)).trans (hNext _))).goes
      · next h =>
          rw [h] at hOpen
          exact hOpen.goes_trans (goes_same rfl rfl rfl)
  | region site =>
      simp only [acquire]
      exact goes_perform fun _ _ => hOwn _ _
  | call site =>
      simp only [acquire]
      exact goes_perform fun _ _ => hOwn _ _
  | guards site => exact hOwn m _

private theorem goes_registerGuard (m : Machine ν) (name : String) (flavor : Flavor)
    (body : List (Stmt ν)) :
    m.Goes (m.registerGuard name flavor body) := by
  unfold registerGuard
  dsimp only
  split
  · split
    · exact goes_emit _ (by simp) rfl rfl rfl
    · refine goes_perform fun context mark => ?_
      exact goes_emit _ (by simp) rfl rfl rfl
  · exact goes_same rfl rfl rfl

private theorem goes_leaveScope (m : Machine ν) (scope : Leaving ν) :
    m.Goes (m.leaveScope scope) := by
  unfold leaveScope
  split
  · exact goes_perform fun _ _ => goes_same rfl rfl rfl
  · split
    · exact goes_perform fun _ _ => goes_same rfl rfl rfl
    · exact goes_same rfl rfl rfl

private theorem goes_guardFailed (m : Machine ν) (scope : Leaving ν)
    (payload : Payload) :
    m.Goes (m.guardFailed scope payload) := by
  have hCaught : m.Quiet m.caught := quiet_same rfl rfl rfl
  exact hCaught.goes_trans (goes_fatal m.caught _ none)

private theorem goes_drop (m : Machine ν) (handle : Handle ν) :
    m.Goes (m.drop handle) := by
  have hNext : m.Goes (m.goto .next) := goes_same rfl rfl rfl
  cases handle with
  | thread => exact (quiet_dropThread m).goes_trans (goes_same rfl rfl rfl)
  | region visit inUnwinding =>
      simp only [drop]
      split
      · exact hNext
      · split <;> exact goes_perform fun _ _ => goes_same rfl rfl rfl
  | call entry inUnwinding =>
      simp only [drop]
      split
      · exact hNext
      · exact goes_perform fun _ _ => goes_same rfl rfl rfl
  | guards scope =>
      simp only [drop]
      split
      · exact hNext
      · split
        · exact hNext
        · exact goes_same rfl rfl rfl

private theorem goes_release (m : Machine ν) (name : String) (how : Closing) :
    m.Goes (m.release name how) := by
  unfold release
  split
  · exact goes_same rfl rfl rfl
  · next handle control _ =>
      have hTaken : m.Quiet { m with control } := quiet_same rfl rfl rfl
      refine hTaken.goes_trans ?_
      dsimp only
      split
      · exact goes_same rfl rfl rfl
      · exact goes_perform fun _ _ => goes_same rfl rfl rfl
      · exact ((quiet_closeThread _).trans (quiet_answer _ (by simp))).goes
      · exact goes_same rfl rfl rfl

private theorem goes_raise (m : Machine ν) (ref : KindRef) (site : Site)
    (message : List (Piece ν)) :
    m.Goes (m.raise ref site message) := by
  unfold raise
  split
  · exact goes_fatal m _ _
  · exact goes_perform fun _ _ => goes_same rfl rfl rfl

private theorem goes_sent (m : Machine ν) (outcome : Option Exception) :
    m.Goes (match outcome with
      | none => m.unwind .raise
      | some exception => m.uncaught exception) := by
  split
  · exact goes_same rfl rfl rfl
  · exact goes_uncaught m _

private theorem goes_write (m : Machine ν) (raising : Raising)
    (pieces : List (Piece ν)) : m.Goes (m.write raising pieces) := by
  have hFinish (raising : Raising) : m.Goes (m.finishRaise raising) := by
    have hFreed : m.Quiet { m with inUse := false } := quiet_same rfl rfl rfl
    unfold finishRaise
    exact hFreed.goes_trans (goes_perform fun _ outcome => goes_sent _ outcome)
  unfold write
  split
  · exact hFinish raising
  · split
    · exact goes_same rfl rfl rfl
    · exact hFinish _
  · exact goes_same rfl rfl rfl

private theorem goes_forward (m : Machine ν) (exception : Exception) :
    m.Goes (m.forward exception) :=
  goes_perform fun _ outcome => goes_sent _ outcome

private theorem goes_protect (m : Machine ν) (levels : Nat) (site : Site) (mode : Mode)
    (clauses : List (Clause ν)) (body : List (Stmt ν)) :
    m.Goes (m.protect levels site mode clauses body) := by
  refine goes_perform fun context visit => ?_
  dsimp only
  split <;> exact goes_same rfl rfl rfl

private theorem goes_offer (m : Machine ν) (region : Protected ν)
    (exception : Exception) : m.Goes (m.offer region exception) := by
  unfold offer
  dsimp only
  split
  · exact goes_same rfl rfl rfl
  · exact goes_perform fun _ _ => goes_emit _ (by simp) rfl rfl rfl

private theorem goes_leave (m : Machine ν) (region : Protected ν)
    (outcome : Except Exception (Option ν)) :
    m.Goes (m.leave region outcome) := by
  unfold leave
  refine goes_perform fun context _ => ?_
  split
  · exact goes_emit _ (by simp) rfl rfl rfl
  · exact goes_emit _ (by simp) rfl rfl rfl
  · exact goes_same rfl rfl rfl
  · exact goes_emit _ (by simp) rfl rfl rfl

private theorem goes_passThrough (m : Machine ν) (region : Protected ν)
    (payload : Payload) : m.Goes (m.passThrough region payload) := by
  unfold passThrough
  split
  · exact goes_same rfl rfl rfl
  · exact goes_perform fun _ _ => goes_same rfl rfl rfl

private theorem quiet_notices (m : Machine ν) (notices : List Notice) :
    m.Quiet (notices.foldl note m) := by
  induction notices generalizing m with
  | nil => exact .refl m
  | cons notice notices ih => exact (quiet_emit m (by simp)).trans (ih _)

private theorem goes_exec (m : Machine ν) (stmt : Stmt ν) : m.Goes (m.exec stmt) := by
  cases stmt with
  | depths | state | trace | current | say | exception | exceptionIsA | isA
  | listKinds =>
      exact (quiet_answer m (by simp)).goes
  | printTrace | value | panic | block | sealKinds => exact goes_same rfl rfl rfl
  | annotate text =>
      simp only [exec]
      split
      · exact (quiet_answer m (by simp)).goes
      · exact goes_emit _ (by simp) rfl rfl rfl
  | raise kind site message => exact goes_raise m kind site message
  | rethrow name =>
      simp only [exec]
      split
      · exact goes_same rfl rfl rfl
      · exact (quiet_answer m (by simp)).goes
  | protect levels site mode clauses body =>
      exact goes_protect m levels site mode clauses body
  | loop times body => cases times <;> exact goes_same rfl rfl rfl
  | attempt body resume => exact goes_same rfl rfl rfl
  | acquire name opening times =>
      cases times with
      | zero => exact goes_same rfl rfl rfl
      | succ times =>
          simp only [exec]
          exact goes_acquire m name opening fun _ => quiet_same rfl rfl rfl
  | release name how => exact goes_release m name how
  | guard scope flavor body => exact goes_registerGuard m scope flavor body
  | inspect name =>
      simp only [exec]
      split
      · exact (quiet_answer m (by simp)).goes
      · exact goes_same rfl rfl rfl
  | configure config =>
      simp only [exec]
      split
      · exact (quiet_answer m (by simp)).goes
      · next hNone =>
          refine (show m.Quiet { m with config := some config } from
            ⟨id, fun _ hConfig => ?_, fun _ => id⟩).goes_trans
            ((quiet_emit _ (by simp)).trans (quiet_answer _ (by simp))).goes
          rw [hNone] at hConfig
          cases hConfig
  | «declare» entry =>
      simp only [exec]
      split
      · exact (quiet_answer m (by simp)).goes
      · next registry notices _ =>
          exact (show m.Quiet { m with registry } from quiet_same rfl rfl
            rfl).goes_trans
            ((quiet_notices _ notices).trans (quiet_answer _ (by simp))).goes

private theorem goes_proceed (m : Machine ν) : m.Goes m.proceed := by
  unfold proceed
  split <;> exact goes_same rfl rfl rfl

private theorem goes_complete (m : Machine ν) (value : Option (Option ν)) :
    m.Goes (m.complete value) := by
  unfold complete
  split
  · exact goes_emit _ (by simp) rfl rfl rfl
  · exact goes_same rfl rfl rfl

private theorem goes_deliver (m : Machine ν) (value : Option ν) :
    m.Goes (m.deliver value) := by
  unfold deliver
  split
  · exact goes_same rfl rfl rfl
  · next waiting below _ =>
      have hPopped : m.Quiet { m with control := below } := quiet_same rfl rfl rfl
      cases waiting with
      | block | handler | releasing | unwinding | resuming | message =>
          exact goes_same rfl rfl rfl
      | body region =>
          refine hPopped.goes_trans (goes_perform fun context escape => ?_)
          cases escape <;> exact goes_same rfl rfl rfl
      | guarding scope =>
          exact hPopped.goes_trans (goes_perform fun _ _ => goes_same rfl rfl rfl)
      | attempt resume => exact (hPopped.trans (quiet_answer _ (by simp))).goes
      | loop times body => cases times <;> exact goes_same rfl rfl rfl
      | thread auto =>
          cases auto with
          | false => exact goes_same rfl rfl rfl
          | true =>
              exact (hPopped.trans (quiet_closeThread _)).goes_trans
                (goes_same rfl rfl rfl)

private theorem goes_propagate (m : Machine ν) (payload : Payload) :
    m.Goes (m.propagate payload) := by
  unfold propagate
  split
  · exact goes_same rfl rfl rfl
  · next waiting below _ =>
      have hPopped : m.Quiet { m with control := below } := quiet_same rfl rfl rfl
      cases waiting with
      | block word rest handles value => cases handles <;> exact goes_same rfl rfl rfl
      | body region =>
          cases payload with
          | raise =>
              have hCaught : m.Quiet ({ m with control := below } : Machine ν).caught :=
                quiet_same rfl rfl rfl
              exact hCaught.goes_trans (goes_perform fun _ _ => goes_same rfl rfl rfl)
          | panic | termination =>
              exact hPopped.goes_trans (goes_passThrough _ region _)
      | handler region => exact hPopped.goes_trans (goes_passThrough _ region _)
      | guarding scope => exact hPopped.goes_trans (goes_guardFailed _ scope payload)
      | releasing | unwinding | resuming | loop | message => exact goes_same rfl rfl rfl
      | attempt resume =>
          cases resume <;> exact goes_emit (.unwound payload) (by simp) rfl rfl rfl
      | thread auto =>
          cases auto with
          | false => exact goes_same rfl rfl rfl
          | true =>
              exact (hPopped.trans (quiet_dropThread _)).goes_trans
                (goes_same rfl rfl rfl)

/-- A step speaks of a termination only if it calls the terminator, and that is the last
thing it does. -/
theorem goes_step (m : Machine ν) : m.Goes m.step := by
  unfold step
  split
  · exact goes_proceed m
  · exact goes_exec m _
  · exact goes_complete m _
  · exact goes_deliver m _
  · exact goes_propagate m _
  · exact goes_offer m _ _
  · exact goes_leave m _ _
  · exact goes_forward m _
  · exact goes_drop m _
  · exact goes_leaveScope m _
  · exact goes_write m _ _
  · exact (Quiet.refl m).goes

end

/-! ## Runs -/

section

variable {first m : Machine ν}

private theorem steps_of_isStopped (h : m.IsStopped) (count : Nat) :
    steps count m = m := by
  obtain ⟨how, hFocus⟩ := h
  cases count with
  | zero => rfl
  | succ count => simp only [steps, hFocus]

private theorem step_of_isStopped (h : m.IsStopped) : m.step = m := by
  obtain ⟨how, hFocus⟩ := h
  simp only [step, hFocus]

/-- A machine that has stopped takes no notice of further steps. -/
theorem steps_step (count : Nat) (m : Machine ν) :
    steps (count + 1) m = steps count m.step := by
  by_cases hStopped : m.IsStopped
  · rw [step_of_isStopped hStopped, steps_of_isStopped hStopped,
      steps_of_isStopped hStopped]
  · rw [steps]
    split
    · next how hFocus => exact absurd ⟨how, hFocus⟩ hStopped
    · rfl

/-- One step more is one step after the others. -/
theorem steps_succ (count : Nat) (m : Machine ν) :
    steps (count + 1) m = (steps count m).step := by
  induction count generalizing m with
  | zero => exact steps_step 0 m
  | succ count ih => rw [steps_step, ih, steps_step]

/-- A machine that has stopped stays as it is. -/
theorem steps_of_le {count later : Nat} (h : (steps count m).IsStopped)
    (hLater : count ≤ later) :
    steps later m = steps count m := by
  obtain ⟨more, rfl⟩ := Nat.exists_eq_add_of_le hLater
  clear hLater
  induction more with
  | zero => rfl
  | succ more ih => rw [← Nat.add_assoc, steps_succ, ih, step_of_isStopped h]

/-- A thread goes on fading for as long as the program lets the unwinding pass. -/
theorem Fades.steps (h : Fades first m) (hUnwinds : first.TerminatorUnwinds)
    {count : Nat} (hStops : ∀ i < count, ¬ (steps i m).StopsTermination) :
    Fades first (steps count m) := by
  induction count with
  | zero => exact h
  | succ count ih =>
      rw [steps_succ]
      exact (ih fun i hi => hStops i (by omega)).step hUnwinds (hStops count (by omega))

private theorem Called.fades {cause : Notice} {termination : Termination}
    (h : m.Called first cause termination) :
    Fades first first where
  poisoned := h.poisoned
  config := rfl
  fading := h.fading
  context := .inl rfl
  bodies := List.suffix_refl _
  events := ⟨0, .none, by omega⟩

private theorem silent_start (process : Process) (auto : Bool) (limits : Option Limits)
    (body : List (Stmt ν)) (termination : Termination) :
    .terminated termination ∉ (start process auto limits body).events := by
  unfold start
  dsimp only
  split
  · let fresh : Machine ν :=
      { toProcess := process
        control := [.block "" body [] none, .thread auto]
        focus := .next }
    intro hMem
    have hEarlier := (quiet_openThread fresh limits).silent termination
    split at hMem
    · next h =>
        rw [h] at hEarlier
        exact absurd (hEarlier hMem) List.not_mem_nil
    · next h =>
        rw [h] at hEarlier
        exact absurd (hEarlier hMem) List.not_mem_nil
  · exact List.not_mem_nil

/-- Up to the call the history does not speak of a termination. -/
theorem silent_steps (hSilent : ∀ termination, .terminated termination ∉ m.events)
    {count : Nat} (hClear : ∀ i ≤ count, (steps i m).poisoned = false)
    (termination : Termination) :
    .terminated termination ∉ (steps count m).events := by
  induction count with
  | zero => exact hSilent termination
  | succ count ih =>
      have hNext := hClear (count + 1) (Nat.le_refl _)
      rw [steps_succ] at hNext ⊢
      rcases goes_step (steps count m) with hQuiet | ⟨last, -, hFinds⟩
      · exact fun hMem => ih (fun i hi => hClear i (by omega))
          (hQuiet.silent termination hMem)
      · generalize (Machine.steps count m).step = after at hFinds hNext
        cases hFinds <;> cases hNext.symm.trans (poisoned_terminate _ _)

end

end Machine

/-! ## The law -/

/-- A thread is terminated with what was found first. Where its terminator unwinds,
nothing has been said of a termination up to the call, and the call is for the failure
or the exception that the step has found. From then on, for as long as the program
itself lets the unwinding pass, nothing goes on but unwinding; every handler and guard
body that runs was running at the call; the context stays as it is, or the handle of the
thread takes it away; and the terminator is called again at most once for each guard
body that was running, because the unwinding leaves it.

A terminator that unwinds is the interesting case, because the thread then runs
destructors and handles on after it. The handles find the thread poisoned and do
nothing. -/
theorem terminates_once {process : Process} {auto : Bool} {limits : Option Limits}
    {body : List (Stmt ν)} {count : Nat}
    (hClear : ∀ i ≤ count,
      (Machine.steps i (.start process auto limits body)).poisoned = false)
    (hUnwinds :
      (Machine.steps count (.start process auto limits body)).TerminatorUnwinds)
    (hCall : (Machine.steps (count + 1) (.start process auto limits body)).poisoned =
      true) :
    let first := Machine.steps (count + 1) (.start process auto limits body)
    (∃ (last : Machine ν) (cause : Notice) (termination : Termination),
      (∀ earlier, .terminated earlier ∉ last.events) ∧ last.Finds first ∧
      last.Called first cause termination) ∧
    ∀ j, (∀ i < j, ¬ (Machine.steps i first).StopsTermination) →
      let later := Machine.steps j first
      later.Fading ∧ bodiesOf later.control <:+ bodiesOf first.control ∧
      (later.context = first.context ∨ later.context = none) ∧
      (∃ calls, Recalls first.events later.events calls ∧
        calls + guardBodiesOf later.control ≤ guardBodiesOf first.control) ∧
      (guardBodiesOf first.control = 0 → later.events = first.events) := by
  intro first
  have hStep : first = (Machine.steps count (.start process auto limits body)).step :=
    Machine.steps_succ _ _
  rcases Machine.goes_step (Machine.steps count (.start process auto limits body))
    with hQuiet | ⟨last, hQuiet, hFinds⟩
  · rw [← hStep] at hQuiet
    cases hCall.symm.trans (hQuiet.clear (hClear count (Nat.le_refl _)))
  rw [← hStep] at hFinds
  have hSilent : ∀ earlier, .terminated earlier ∉ last.events := fun earlier hMem =>
    Machine.silent_steps (Machine.silent_start process auto limits body)
      hClear earlier (hQuiet.silent earlier hMem)
  have hLast : last.TerminatorUnwinds := by
    obtain ⟨config, hConfig, hUnwind⟩ := hUnwinds
    exact ⟨config, hQuiet.config config hConfig, hUnwind⟩
  obtain ⟨cause, termination, hCalled⟩ : ∃ cause termination,
      last.Called first cause termination := by
    generalize first = first at hFinds
    cases hFinds with
    | failure error dump =>
        obtain ⟨kind, report, hCalled⟩ := Machine.called_fatal hLast error dump
        exact ⟨_, _, hCalled⟩
    | exception exception =>
        obtain ⟨text, report, hCalled⟩ := Machine.called_uncaught hLast exception
        exact ⟨_, _, hCalled⟩
  refine ⟨⟨last, cause, termination, hSilent, hFinds, hCalled⟩, fun j hStops => ?_⟩
  have hFades := hCalled.fades.steps (hLast.of_config hCalled.config) hStops
  refine ⟨hFades.fading, hFades.bodies, hFades.context, hFades.events, fun hNone => ?_⟩
  obtain ⟨calls, hCalls, hLe⟩ := hFades.events
  obtain rfl : calls = 0 := by omega
  generalize (Machine.steps j first).events = events at hCalls
  cases hCalls
  rfl

/-- A process whose terminator unwinds. -/
def unwindingProcess : Process :=
  { config := some { terminator := .unwind } }

/-- In a region, with a call and a guard scope open, a kind is raised that nobody has
declared. -/
def undeclared : List (Stmt Nat) :=
  [.protect 1 ⟨"main", 1, "main"⟩ .run catchAll
    [.acquire "call" (.call ⟨"main", 2, "main"⟩) 1,
      .acquire "guard" (.guards ⟨"main", 3, "main"⟩) 1,
      .guard "guard" .always [.say "undone"],
      .raise (.slot "nothing") ⟨"main", 4, "main"⟩ []]]

/-- The thread of `undeclared` unwinds through all that without another word. -/
theorem terminates_once_undeclared :
    let first := Machine.steps 15 (.start unwindingProcess true none undeclared)
    first.poisoned = true ∧ (first.events.filterMap Event.termination?).length = 1 ∧
      (Machine.steps 20 first).Fading ∧ (Machine.steps 20 first).events =
        first.events := by
  intro first
  have hClear :
      ∀ i ≤ 14,
      (Machine.steps i (.start unwindingProcess true none undeclared)).poisoned =
      false := by
    decide +kernel
  have hConfig :
    (Machine.steps 14 (.start unwindingProcess true none undeclared)).config =
      some { terminator := .unwind } := by decide +kernel
  have hCall : first.poisoned = true := by decide +kernel
  obtain ⟨-, hLaw⟩ := terminates_once hClear ⟨_, hConfig, rfl⟩ hCall
  obtain ⟨hFading, -, -, -, hSame⟩ := hLaw 20 (by decide +kernel)
  exact ⟨hCall, by decide +kernel, hFading, hSame (by decide +kernel)⟩

/-- A guard body raises a kind that nobody has declared. -/
def terminatedTwice : List (Stmt Nat) :=
  [.acquire "guard" (.guards ⟨"main", 1, "main"⟩) 1,
    .guard "guard" .always [.raise (.slot "nothing") ⟨"main", 2, "undo"⟩ []]]

/-- A thread may be terminated twice, though its program lets every unwinding pass: the
runtime itself stops the one of the termination where it leaves the guard body, and
takes it for a failure of that body.

The second call reports that a guard body has unwound; what it unwound with is the first
call. -/
theorem terminatedTwice_fails :
    (∀ i,
      ¬ (Machine.steps i
      (.start unwindingProcess true none terminatedTwice)).StopsTermination) ∧
      ((Machine.start unwindingProcess true none terminatedTwice).run.events.filterMap
        Event.termination?).length = 2 := by
  refine ⟨fun i => ?_, by decide +kernel⟩
  have hRun : ∀ i ≤ (Machine.start unwindingProcess true none terminatedTwice).weight,
      ¬ (Machine.steps i
        (.start unwindingProcess true none terminatedTwice)).StopsTermination := by
        decide +kernel
  by_cases hShort :
    i ≤ (Machine.start unwindingProcess true none terminatedTwice).weight
  · exact hRun i hShort
  · rw [Machine.steps_of_le (Machine.run_isStopped _) (by omega)]
    exact hRun _ (Nat.le_refl _)

end Unwinding
