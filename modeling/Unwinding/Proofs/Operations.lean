import Unwinding.Proofs.Alongside
import Unwinding.Proofs.Deeds
import Unwinding.Proofs.Termination

/-!
# The operations of a thread on its context

A step of a machine performs at most one operation on its context. Laws about a context
that hold in every run, also after an operation has failed and after the thread has been
terminated, need to know of a step only which operation that was: `Operation` lists the
operations, `Machine.Calls` says when a machine performs one, and `Machine.Operates` is
all that can become of the context in one step.

`Deed` says more of a step, but only of one that does not terminate the thread.

## Main results

* `Machine.leads_step` — the one place where the steps of the machine are gone through
  for their operations.
* `Machine.Leads.carries` — what becomes of a context that is there before and after a
  step.
* `Machine.config_steps` — a configuration, once it is in force, stays in force.
-/

namespace Unwinding

open Context

/-! ## Operations -/

/-- An operation on a context, with what it is given. -/
inductive Operation where
  | enter (site : Site) (explicit : Bool)
  | leave (visit : Visit) (unwinding : Bool)
  | abandon (visit : Visit)
  | catchInFlight (visit : Visit)
  | claimEscape (slots : Slots) (visit : Visit)
  | beginHandling (visit : Visit)
  /-- The kind of a raise is looked up, and how long its message may be. -/
  | measure (table : KindTable) (kind : Kind)
  | raise (table : KindTable) (kind : Kind) (site : Site) (written : String)
  | forward (exception : Exception)
  | openScope (site : Site)
  | closeScope (mark : Nat)
  | shield (mark : Nat)
  | unshield (mark : Nat)
  | enterCall (site : Site)
  | leaveCall (entry : Depths) (unwinding : Bool)

/-- The step on the context, without its answer. -/
def Operation.step : Operation → Step Unit
  | .enter site explicit => discard (Context.enter site explicit)
  | .leave visit unwinding => discard (Context.leave visit unwinding)
  | .abandon visit => discard (Context.abandon visit)
  | .catchInFlight visit => discard (Context.catchInFlight visit)
  | .claimEscape slots visit => discard (Context.claimEscape slots visit)
  | .beginHandling visit => discard (Context.beginHandling visit)
  | .measure table kind => discard do
      let _ ← Context.ofExcept (table.entry kind)
      return (← get).messageLimit
  | .raise table kind site written => discard (Context.raise table kind site written)
  | .forward exception => discard (Context.forward exception)
  | .openScope site => discard (Context.openScope site)
  | .closeScope mark => discard (Context.closeScope mark)
  | .shield mark => discard (Context.shield mark)
  | .unshield mark => discard (Context.popDispatch mark .guard)
  | .enterCall site => discard (Context.enterCall site)
  | .leaveCall entry unwinding => discard (Context.leaveCall entry unwinding)

section

variable {α : Type} {step : Step α} {context left : Context}

/-- An answer that is not looked at leaves the same context behind. -/
theorem leftBehind_discard (step : Step α) (context : Context) :
    leftBehind ((discard step : Step Unit) context) = leftBehind (step context) := by
  change leftBehind (EStateM.map _ step context) = _
  unfold EStateM.map
  cases step context <;> rfl

/-- A step fails with or without its answer. -/
theorem discard_eq_error {error : Error} :
    (discard step : Step Unit) context = .error error left ↔
      step context = .error error left := by
  change EStateM.map _ step context = _ ↔ _
  unfold EStateM.map
  cases step context <;> simp

end

/-! ## What becomes of the context -/

namespace Machine

variable {ν : Type}

/-- The next step of a machine performs an operation, if there is a context that can be
used. -/
inductive Calls (m : Machine ν) : Operation → Prop
  | openRegion {name : String} {site : Site} {times : Nat}
    (hFocus : m.focus = .exec (.acquire name (.region site) (times + 1))) :
      Calls m (.enter site true)
  | openCall {name : String} {site : Site} {times : Nat}
      (hFocus : m.focus = .exec (.acquire name (.call site) (times + 1))) :
      Calls m (.enterCall site)
  | protect {levels : Nat} {site : Site} {mode : Mode} {clauses : List (Clause ν)}
      {body : List (Stmt ν)}
      (hFocus : m.focus = .exec (.protect levels site mode clauses body)) :
        Calls m (.enter site false)
  | openScope {name : String} {flavor : Flavor} {body : List (Stmt ν)} {scope : Scope ν}
      (hFocus : m.focus = .exec (.guard name flavor body))
      (hFind : Handle.find? name m.control = some (.guards scope))
      (hMark : scope.mark = none) : Calls m (.openScope scope.site)
  | release {name : String} {visit : Visit} {inUnwinding : Bool}
      {control : List (Resumption ν)}
      (hFocus : m.focus = .exec (.release name .leave))
      (hTake : Handle.take? name m.control = some (.region visit inUnwinding, control))
        : Calls m (.leave visit false)
  | measure {ref : KindRef} {site : Site} {message : List (Piece ν)} {kind : Kind}
      (hFocus : m.focus = .exec (.raise ref site message))
      (hKind : ref.resolve? m.registry.slots = some kind) :
      Calls m (.measure m.registry.table kind)
  | raise {raising finished : Raising} {pieces : List (Piece ν)}
      (hFocus : m.focus = .write raising pieces)
      (hFinished : raising.finished? pieces = some finished) :
      Calls m (.raise m.registry.table finished.kind finished.site finished.buffer.text)
  | forward {exception : Exception} (hFocus : m.focus = .forward exception) :
      Calls m (.forward exception)
  | dropRegion {visit : Visit} {inUnwinding : Bool}
      (hFocus : m.focus = .drop (.region visit inUnwinding))
      (isLeft : (m.isPanicking && !inUnwinding) = true) : Calls m (.leave visit true)
  | abandon {visit : Visit} {inUnwinding : Bool}
      (hFocus : m.focus = .drop (.region visit inUnwinding))
      (isLeft : (m.isPanicking && !inUnwinding) = false) : Calls m (.abandon visit)
  | dropCall {entry : Depths} {inUnwinding : Bool}
      (hFocus : m.focus = .drop (.call entry inUnwinding)) :
      Calls m (.leaveCall entry (m.isPanicking && !inUnwinding))
  | closeScope {scope : Leaving ν} (hFocus : m.focus = .leaveScope scope)
      (hBodies : scope.bodies = []) :
      Calls m (.closeScope scope.mark)
  | shield {scope : Leaving ν} {flavor : Flavor} {body : List (Stmt ν)}
      {bodies : List (Flavor × List (Stmt ν))}
      (hFocus : m.focus = .leaveScope scope)
      (hBodies : scope.bodies = (flavor, body) :: bodies)
      (hApplies : flavor.applies scope.unwinding = true) : Calls m (.shield scope.mark)
  | claim {value : Option ν} {region : Protected ν} {below : List (Resumption ν)}
      (hFocus : m.focus = .deliver value)
      (hControl : m.control = .body region :: below) :
        Calls m (.claimEscape m.registry.slots region.visit)
  | unshield {value : Option ν} {scope : Leaving ν} {below : List (Resumption ν)}
      (hFocus : m.focus = .deliver value)
      (hControl : m.control = .guarding scope :: below) : Calls m (.unshield scope.mark)
  | catches {region : Protected ν} {below : List (Resumption ν)}
      (hFocus : m.focus = .unwind .raise)
      (hControl : m.control = .body region :: below) :
        Calls m (.catchInFlight region.visit)
  | passBody {payload : Payload} {region : Protected ν} {below : List (Resumption ν)}
      (hFocus : m.focus = .unwind payload)
      (isPanic : payload ≠ .raise) (hControl : m.control = .body region :: below) :
        Calls m (.leave region.visit true)
  | passHandler {payload : Payload} {region : Protected ν} {below : List (Resumption ν)}
      (hFocus : m.focus = .unwind payload)
      (hControl : m.control = .handler region :: below) :
        Calls m (.leave region.visit true)
  | handle {region : Protected ν} {exception : Exception}
      (hFocus : m.focus = .offer region exception) :
      Calls m (.beginHandling region.visit)
  | leave {region : Protected ν} {outcome : Except Exception (Option ν)}
      (hFocus : m.focus = .leave region outcome) :
      Calls m (.leave region.visit false)

/-- What becomes of the context of a machine in a step. -/
inductive Operates (m after : Machine ν) : Prop
  | keeps (hContext : after.context = m.context)
  | closes (hContext : after.context = none)
  | opens {config : Config} {limits : Limits} (hNone : m.context = none)
      (hConfig : after.config = some config)
      (hContext : after.context = some (.new config limits))
  | annotates {context : Context} {text : String} (hBefore : m.context = some context)
      (hContext : after.context =
        some { context with frames := (context.frames.annotate text).2 })
  /-- An operation leaves a context behind also if it fails, which terminates the
  thread. -/
  | performs {operation : Operation} {context : Context} (calls : m.Calls operation)
      (hBefore : m.context = some context)
      (hContext : after.context =
        some { leftBehind (operation.step context) with journal := [] })
      (hFails : ∀ error left, operation.step context = .error error left →
        after.poisoned = true)

/-- What a step does to the context, and that it leaves the configuration in force as it
is. -/
structure Leads (m after : Machine ν) : Prop where
  operates : m.Operates after
  config : ∀ config, m.config = some config → after.config = some config

/-! ## Small changes -/

/-- A change of a machine that is none of its context, and leaves a configuration in
force. -/
structure Retains (m after : Machine ν) : Prop where
  context : after.context = m.context
  config : ∀ config, m.config = some config → after.config = some config

section

variable {m after : Machine ν}

private theorem Retains.same (hContext : after.context = m.context)
    (hConfig : after.config = m.config) : m.Retains after :=
  ⟨hContext, fun _ h => hConfig.trans h⟩

private theorem Retains.leads (h : m.Retains after) : m.Leads after :=
  ⟨.keeps h.context, h.config⟩

/-- A step that changes neither the context nor the configuration. -/
theorem leads_same (hContext : after.context = m.context)
    (hConfig : after.config = m.config) : m.Leads after :=
  (Retains.same hContext hConfig).leads

private theorem retains_terminate (m : Machine ν) (termination : Termination) :
    m.Retains (m.terminate termination) := by
  refine ⟨context_terminate m termination, fun config hConfig => ?_⟩
  unfold terminate installed
  dsimp only
  rw [hConfig]
  dsimp only
  cases config.terminator with
  | unwind => dsimp only; split <;> exact hConfig
  | halt => exact hConfig
  | exit => exact hConfig
  | exitSilently => exact hConfig

private theorem retains_fatal (m : Machine ν) (error : Error) (dump : Option String) :
    m.Retains (m.fatal error dump) :=
  have h := retains_terminate (m.note (.fatal error)) _
  ⟨h.context, h.config⟩

private theorem retains_uncaught (m : Machine ν) (exception : Exception) :
    m.Retains (m.uncaught exception) := by
  unfold uncaught
  dsimp only
  have h := retains_terminate (m.note (.uncaught (exception.text m.registry.table)))
    ⟨.uncaught, exception.kind,
      s!"uncaught exception {exception.text m.registry.table}\n{exception.traceText}"⟩
  exact ⟨h.context, h.config⟩

private theorem config_own (m : Machine ν) (name : String) (handle : Handle ν) :
    (m.own name handle).config = m.config := by
  unfold own
  split <;> rfl

private theorem retains_notes (m : Machine ν) (notices : List Notice) :
    m.Retains (notices.foldl note m) := by
  induction notices generalizing m with
  | nil => exact .same rfl rfl
  | cons notice rest ih =>
      have hRest := ih (m.note notice)
      exact ⟨hRest.context, hRest.config⟩

/-- What is done after a step has led somewhere. -/
theorem Leads.andThen {final : Machine ν} (h : m.Leads after)
    (hContext : final.context = after.context) (hConfig : final.config = after.config)
    (hPoisoned : final.poisoned = after.poisoned) : m.Leads final := by
  refine ⟨?_, fun config hBefore => hConfig.trans (h.config config hBefore)⟩
  cases h.operates with
  | keeps hSame => exact .keeps (hContext.trans hSame)
  | closes hNone => exact .closes (hContext.trans hNone)
  | opens hNone hNew hOpened =>
      exact .opens hNone (hConfig.trans hNew) (hContext.trans hOpened)
  | annotates hBefore hAnnotated => exact .annotates hBefore (hContext.trans hAnnotated)
  | performs calls hBefore hLeft hFails =>
      exact .performs calls hBefore (hContext.trans hLeft) fun error left h =>
        hPoisoned.trans (hFails error left h)

private theorem retains_installed (m : Machine ν) :
    m.Retains m.installed.2 ∧ m.installed.2.config = some m.installed.1 := by
  unfold installed
  cases hConfig : m.config with
  | none => exact ⟨⟨rfl, fun _ h => by rw [hConfig] at h; cases h⟩, rfl⟩
  | some config => exact ⟨.same rfl rfl, hConfig⟩

private theorem leads_openThread (m : Machine ν) (limits : Option Limits) :
    m.Leads (m.openThread limits).2 := by
  obtain ⟨hRetains, hConfig⟩ := retains_installed m
  unfold openThread
  generalize m.installed = installed at hRetains hConfig
  obtain ⟨config, ready⟩ := installed
  dsimp only at hRetains hConfig ⊢
  split
  · exact hRetains.leads
  · split
    · exact hRetains.leads
    · next hInitialized =>
        have hNone : m.context = none := by
          rw [← hRetains.context]
          simp only [isInitialized, Bool.not_eq_true, Bool.or_eq_false_iff]
            at hInitialized
          simpa using hInitialized.2
        exact ⟨.opens hNone hConfig rfl, hRetains.config⟩

section

variable {popped : Machine ν}

/-- The context is closed once the code that waited has been taken away. -/
theorem leads_closeThread (hContext : popped.context = m.context)
    (hConfig : popped.config = m.config) :
    m.Leads popped.closeThread.2 := by
  unfold closeThread
  split
  · exact leads_same hContext hConfig
  · split
    · exact leads_same hContext hConfig
    · dsimp only
      split <;> exact ⟨.closes rfl, fun _ h => hConfig.trans h⟩

private theorem leads_dropThread (hContext : popped.context = m.context)
    (hConfig : popped.config = m.config) :
    m.Leads popped.dropThread := by
  have hClosed := leads_closeThread hContext hConfig
  unfold dropThread
  split
  · split
    · exact leads_same hContext hConfig
    · exact ⟨.closes rfl, fun _ h => hConfig.trans h⟩
  · generalize popped.closeThread = closed at hClosed
    obtain ⟨outcome, after⟩ := closed
    cases outcome with
    | ok answer => exact hClosed
    | error error => exact hClosed.andThen rfl rfl rfl

end

end

/-! ## One step -/

section

variable {m popped : Machine ν}

/-- A step on the context is an operation, whatever comes of it. -/
theorem leads_perform {α : Type} {step : Step α} {next : Machine ν → α → Machine ν}
    {operation : Operation} (calls : m.Calls operation)
    (hStep : operation.step = discard step) (hContext : popped.context = m.context)
    (hConfig : popped.config = m.config)
    (hNext : ∀ stored answer, Retains stored (next stored answer)) :
    m.Leads (popped.perform step next) := by
  have hFatal (error : Error) (dump : Option String) :
      m.Leads (popped.fatal error dump) := by
    have h := retains_fatal popped error dump
    exact ⟨.keeps (h.context.trans hContext),
      fun config hBefore => h.config config (hConfig.trans hBefore)⟩
  unfold perform
  split
  · exact hFatal _ _
  · split
    · exact hFatal _ _
    · next context hSome =>
        have hLeft : leftBehind (operation.step context) =
            leftBehind (step context) := by
          rw [hStep, leftBehind_discard]
        split
        · next answer left hOk =>
            have h := hNext (popped.store left) answer
            rw [hOk] at hLeft
            refine ⟨.performs calls (hContext.symm.trans hSome) (h.context.trans ?_)
              fun error failed hError => ?_,
              fun config hBefore => h.config config (hConfig.trans hBefore)⟩
            · rw [hLeft]
              rfl
            · rw [hStep, discard_eq_error, hOk] at hError
              cases hError
        · next error left hError =>
            have h := retains_fatal (popped.store left) error (some left.dump)
            rw [hError] at hLeft
            refine ⟨.performs calls (hContext.symm.trans hSome) (h.context.trans ?_)
              fun _ _ _ => poisoned_terminate _ _,
              fun config hBefore => h.config config (hConfig.trans hBefore)⟩
            rw [hLeft]
            rfl

private theorem leads_acquire {name : String} {opening : Opening} {times : Nat}
    (hFocus : m.focus = .exec (.acquire name opening (times + 1))) :
    m.Leads
      (m.acquire name opening fun m => m.goto (.exec (.acquire name opening times))) :=
      by
  have owns (stored : Machine ν) (handle : Handle ν) :
      stored.Retains
        ((stored.own name handle).goto (.exec (.acquire name opening times))) :=
    .same (context_own stored name handle) (config_own stored name handle)
  unfold acquire
  cases opening with
  | thread limits =>
      have hOpened := leads_openThread m limits
      dsimp only
      generalize m.openThread limits = result at hOpened
      obtain ⟨outcome, opened⟩ := result
      cases outcome with
      | opened =>
          exact hOpened.andThen (context_own _ _ _) (config_own _ _ _)
            (poisoned_own _ _ _)
      | refused error => exact hOpened.andThen rfl rfl rfl
      | overflowed => exact hOpened.andThen rfl rfl rfl
  | region site =>
      exact leads_perform (.openRegion hFocus) rfl rfl rfl fun stored _ => owns stored _
  | call site =>
      exact leads_perform (.openCall hFocus) rfl rfl rfl fun stored _ => owns stored _
  | guards site => exact (owns m _).leads

private theorem leads_registerGuard {name : String} {flavor : Flavor}
    {body : List (Stmt ν)} (hFocus : m.focus = .exec (.guard name flavor body)) :
    m.Leads (m.registerGuard name flavor body) := by
  unfold registerGuard
  split
  · next scope hFind =>
      dsimp only
      split
      · exact leads_same rfl rfl
      · next hMark =>
          exact leads_perform (.openScope hFocus hFind hMark) rfl rfl rfl
            fun _ _ => .same rfl rfl
  · exact leads_same rfl rfl

private theorem leads_release {name : String} {how : Closing}
    (hFocus : m.focus = .exec (.release name how)) :
    m.Leads (m.release name how) := by
  unfold release
  split
  · exact leads_same rfl rfl
  · next handle control hTake =>
      dsimp only
      split
      · exact leads_same rfl rfl
      · exact leads_perform (.release hFocus hTake) rfl rfl rfl fun _ _ => .same rfl rfl
      · have hClosed : m.Leads ({ m with control } : Machine ν).closeThread.2 :=
          leads_closeThread rfl rfl
        generalize ({ m with control } : Machine ν).closeThread = closed at hClosed
        obtain ⟨outcome, after⟩ := closed
        exact hClosed.andThen rfl rfl rfl
      · exact leads_same rfl rfl

private theorem leads_raise {ref : KindRef} {site : Site} {message : List (Piece ν)}
    (hFocus : m.focus = .exec (.raise ref site message)) :
    m.Leads (m.raise ref site message) := by
  unfold raise
  split
  · exact (retains_fatal m _ _).leads
  · next kind hKind =>
      exact leads_perform (.measure hFocus hKind) rfl rfl rfl fun _ _ => .same rfl rfl

/-- What becomes of an exception that has been sent on its way, or handed back. -/
theorem retains_sent (m : Machine ν) (uncaught : Option Exception) : m.Retains
    (match uncaught with
      | none => m.unwind .raise
      | some exception => m.uncaught exception) := by
  cases uncaught with
  | none => exact .same rfl rfl
  | some exception => exact retains_uncaught m exception

private theorem leads_write {raising : Raising} {pieces : List (Piece ν)}
    (hFocus : m.focus = .write raising pieces) :
    m.Leads (m.write raising pieces) := by
  have finishes {finished : Raising}
    (hFinished : raising.finished? pieces = some finished) :
      m.Leads (m.finishRaise finished) := by
    unfold finishRaise
    exact leads_perform (.raise hFocus hFinished) rfl rfl rfl retains_sent
  cases pieces with
  | nil => exact finishes rfl
  | cons piece rest =>
      cases piece with
      | run body => exact leads_same rfl rfl
      | text text =>
          cases hWrite : raising.buffer.write text with
          | mk buffer fits =>
              cases fits with
              | true =>
                  simp only [write, hWrite]
                  exact leads_same rfl rfl
              | false =>
                  simp only [write, hWrite]
                  exact finishes (by simp only [Raising.finished?, hWrite])

private theorem leads_exec {stmt : Stmt ν} (hFocus : m.focus = .exec stmt) :
    m.Leads (m.exec stmt) := by
  unfold exec
  cases stmt with
  | annotate text =>
      unfold ask
      cases hUse : m.inUse with
      | true => exact leads_same rfl rfl
      | false =>
          cases hContext : m.context with
          | none => exact leads_same rfl rfl
          | some context => exact ⟨.annotates hContext rfl, fun _ h => h⟩
  | raise ref site message => exact leads_raise hFocus
  | rethrow name =>
      dsimp only
      split <;> exact leads_same rfl rfl
  | protect levels site mode clauses body =>
      refine leads_perform (.protect hFocus) rfl rfl rfl fun stored visit => ?_
      dsimp only
      split <;> exact .same rfl rfl
  | loop times body => cases times <;> exact leads_same rfl rfl
  | acquire name opening times =>
      cases times with
      | zero => exact leads_same rfl rfl
      | succ times => exact leads_acquire hFocus
  | release name how => exact leads_release hFocus
  | guard name flavor body => exact leads_registerGuard hFocus
  | inspect name =>
      dsimp only
      split <;> exact leads_same rfl rfl
  | configure config =>
      dsimp only
      split
      · exact leads_same rfl rfl
      · next hConfig => exact ⟨.keeps rfl, fun _ h => by rw [hConfig] at h; cases h⟩
  | declare entry =>
      dsimp only
      split
      · exact leads_same rfl rfl
      · next kind registry notices _ =>
          have h := retains_notes { m with registry } notices
          exact ⟨.keeps h.context, h.config⟩
  | _ => exact leads_same rfl rfl

private theorem leads_proceed : m.Leads m.proceed := by
  unfold proceed
  split <;> exact leads_same rfl rfl

private theorem leads_complete {value : Option (Option ν)} :
    m.Leads (m.complete value) := by
  unfold complete
  split <;> exact leads_same rfl rfl

private theorem leads_deliver {value : Option ν} (hFocus : m.focus = .deliver value) :
    m.Leads (m.deliver value) := by
  unfold deliver
  cases hControl : m.control with
  | nil => exact leads_same rfl rfl
  | cons waiting below =>
      cases waiting with
      | body region =>
          refine leads_perform (.claim hFocus hControl) rfl rfl rfl fun stored escape =>
            ?_
          cases escape <;> exact .same rfl rfl
      | guarding scope =>
          exact leads_perform (.unshield hFocus hControl) rfl rfl rfl
            fun _ _ => .same rfl rfl
      | thread auto =>
          cases auto with
          | false => exact leads_same rfl rfl
          | true =>
              have hClosed :
                  m.Leads ({ m with control := below } : Machine ν).closeThread.2 :=
                leads_closeThread rfl rfl
              exact hClosed.andThen rfl rfl rfl
      | loop times body => cases times <;> exact leads_same rfl rfl
      | _ => exact leads_same rfl rfl

/-- An unwinding leaves a region, unless the thread has been terminated. -/
theorem leads_passThrough {region : Protected ν} {payload : Payload}
    {below : List (Resumption ν)} (calls : m.Calls (.leave region.visit true)) :
    m.Leads (({ m with control := below } : Machine ν).passThrough region payload) := by
  unfold passThrough
  split
  · exact leads_same rfl rfl
  · exact leads_perform calls rfl rfl rfl fun _ _ => .same rfl rfl

private theorem leads_propagate {payload : Payload}
    (hFocus : m.focus = .unwind payload) : m.Leads (m.propagate payload) := by
  unfold propagate
  cases hControl : m.control with
  | nil => exact leads_same rfl rfl
  | cons waiting below =>
      cases waiting with
      | block word rest handles value => cases handles <;> exact leads_same rfl rfl
      | body region =>
          cases payload with
          | raise =>
              exact leads_perform (.catches hFocus hControl) rfl rfl rfl
                fun _ _ => .same rfl rfl
          | panic text => exact leads_passThrough (.passBody hFocus (by simp) hControl)
          | termination termination =>
              exact leads_passThrough (.passBody hFocus (by simp) hControl)
      | handler region => exact leads_passThrough (.passHandler hFocus hControl)
      | guarding scope =>
          have h := retains_fatal ({ m with control := below } : Machine ν).caught
          exact ⟨.keeps (h _ _).context, (h _ _).config⟩
      | attempt resume => cases resume <;> exact leads_same rfl rfl
      | thread auto =>
          cases auto with
          | false => exact leads_same rfl rfl
          | true =>
              have hDropped :
                  m.Leads ({ m with control := below } : Machine ν).dropThread :=
                leads_dropThread rfl rfl
              exact hDropped.andThen rfl rfl rfl
      | _ => exact leads_same rfl rfl

private theorem leads_offer {region : Protected ν} {exception : Exception}
    (hFocus : m.focus = .offer region exception) :
    m.Leads (m.offer region exception) := by
  unfold offer
  dsimp only
  split
  · exact leads_same rfl rfl
  · exact leads_perform (.handle hFocus) rfl rfl rfl fun _ _ => .same rfl rfl

private theorem leads_leave {region : Protected ν}
    {outcome : Except Exception (Option ν)} (hFocus : m.focus = .leave region outcome) :
    m.Leads (m.leave region outcome) := by
  refine leads_perform (.leave hFocus) rfl rfl rfl fun stored _ => ?_
  split <;> exact .same rfl rfl

private theorem leads_drop {handle : Handle ν} (hFocus : m.focus = .drop handle) :
    m.Leads (m.drop handle) := by
  unfold drop
  cases handle with
  | thread =>
      have hDropped : m.Leads m.dropThread := leads_dropThread rfl rfl
      exact hDropped.andThen rfl rfl rfl
  | region visit inUnwinding =>
      dsimp only
      split
      · exact leads_same rfl rfl
      · split
        · next hLeft =>
            exact leads_perform (.dropRegion hFocus hLeft) rfl rfl rfl
              fun _ _ => .same rfl rfl
        · next hLeft =>
            exact leads_perform (.abandon hFocus (by simpa using hLeft)) rfl rfl rfl
              fun _ _ => .same rfl rfl
  | call entry inUnwinding =>
      dsimp only
      split
      · exact leads_same rfl rfl
      · exact leads_perform (.dropCall hFocus) rfl rfl rfl fun _ _ => .same rfl rfl
  | guards scope =>
      dsimp only
      split
      · exact leads_same rfl rfl
      · split <;> exact leads_same rfl rfl

private theorem leads_leaveScope {scope : Leaving ν}
    (hFocus : m.focus = .leaveScope scope) : m.Leads (m.leaveScope scope) := by
  unfold leaveScope
  split
  · next hBodies =>
      exact leads_perform (.closeScope hFocus hBodies) rfl rfl rfl
        fun _ _ => .same rfl rfl
  · next flavor body bodies hBodies =>
      split
      · next hApplies =>
          exact leads_perform (.shield hFocus hBodies hApplies) rfl rfl rfl
            fun _ _ => .same rfl rfl
      · exact leads_same rfl rfl

/-- What a step of a machine, whatever it is, does to the context. -/
theorem leads_step (m : Machine ν) : m.Leads m.step := by
  unfold step
  cases hFocus : m.focus with
  | next => exact leads_proceed
  | exec stmt => exact leads_exec hFocus
  | complete value => exact leads_complete
  | deliver value => exact leads_deliver hFocus
  | unwind payload => exact leads_propagate hFocus
  | offer region exception => exact leads_offer hFocus
  | leave region outcome => exact leads_leave hFocus
  | forward exception => exact leads_perform (.forward hFocus) rfl rfl rfl retains_sent
  | drop handle => exact leads_drop hFocus
  | leaveScope scope => exact leads_leaveScope hFocus
  | write raising pieces => exact leads_write hFocus
  | stopped how => exact leads_same rfl rfl

end

/-! ## Runs -/

/-- A configuration that is in force stays in force. -/
theorem config_steps {m : Machine ν} {config : Config} (h : m.config = some config)
    (count : Nat) :
    (steps count m).config = some config := by
  induction count with
  | zero => exact h
  | succ count ih =>
      rw [steps_succ]
      exact (leads_step _).config config ih

/-- A context that is there after a step and was not there before has just been
opened. -/
theorem Leads.opened {m after : Machine ν} {context : Context} (h : m.Leads after)
    (hNone : m.context = none) (hContext : after.context = some context) :
    ∃ config limits, after.config = some config ∧ context = .new config limits := by
  cases h.operates with
  | keeps hSame => cases hContext.symm.trans (hSame.trans hNone)
  | closes hClosed => cases hContext.symm.trans hClosed
  | @opens config limits _ hConfig hNew =>
      exact ⟨config, limits, hConfig, Option.some.inj (hContext.symm.trans hNew)⟩
  | annotates hBefore => cases hNone.symm.trans hBefore
  | performs calls hBefore => cases hNone.symm.trans hBefore

/-- What a step does to a context that is there before and after it. -/
inductive Carries (m : Machine ν) (before : Context) : Context → Prop
  | keeps : Carries m before before
  | annotates (text : String) : Carries m before { before with frames :=
      (before.frames.annotate text).2 }
  | performs {operation : Operation} (calls : m.Calls operation) :
      Carries m before { leftBehind (operation.step before) with journal := [] }

/-- A machine that leads to another carries its context there, if both have one. -/
theorem Leads.carries {m after : Machine ν} {before context : Context}
    (h : m.Leads after) (hBefore : m.context = some before)
    (hContext : after.context = some context) : m.Carries before context := by
  cases h.operates with
  | keeps hSame =>
      obtain rfl := Option.some.inj (hContext.symm.trans (hSame.trans hBefore))
      exact .keeps
  | closes hClosed => cases hContext.symm.trans hClosed
  | opens hNone => cases hBefore.symm.trans hNone
  | annotates hSame hAnnotated =>
      obtain rfl := Option.some.inj (hBefore.symm.trans hSame)
      obtain rfl := Option.some.inj (hContext.symm.trans hAnnotated)
      exact .annotates _
  | performs calls hSame hLeft =>
      obtain rfl := Option.some.inj (hBefore.symm.trans hSame)
      obtain rfl := Option.some.inj (hContext.symm.trans hLeft)
      exact .performs calls

/-- The first state of a thread comes of one change to a machine that has no context. -/
theorem leads_start (process : Process) (auto : Bool) (limits : Option Limits)
    (body : List (Stmt ν)) :
    ∃ fresh : Machine ν, fresh.context = none ∧
      fresh.Leads (start process auto limits body) := by
  let fresh : Machine ν :=
    { toProcess := process
      control := [.block "" body [] none, .thread auto]
      focus := .next }
  refine ⟨fresh, rfl, ?_⟩
  have hOpened := leads_openThread fresh limits
  unfold start
  cases auto with
  | false => exact leads_same rfl rfl
  | true =>
      simp only [if_true]
      generalize hResult : openThread _ _ = result
      change fresh.openThread limits = result at hResult
      rw [hResult] at hOpened
      obtain ⟨outcome, opened⟩ := result
      cases outcome with
      | opened => exact hOpened
      | refused error => exact hOpened
      | overflowed => exact hOpened.andThen rfl rfl rfl

end Machine

end Unwinding
