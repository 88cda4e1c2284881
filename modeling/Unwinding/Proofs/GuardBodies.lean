import Unwinding.Proofs.Courses
import Unwinding.Proofs.Nesting

/-!
# The guard bodies that run

When a guard scope is left, its bodies run one after another, and each may leave scopes
of its own. The scopes of which a body runs stand in the waiting code, innermost first
(`Machine.leavings`). A step begins a guard body, ends the innermost one, or leaves them
alone (`Machine.nests_step`); and there are as many of them as the ledger of the run
says (`tallied_of_reaches`), so a run can be followed on the ledger and in the waiting
code at the same time.

## Main results

* `Machine.leavings_exec`, `Machine.leavings_drop` and the laws beside them — what
  leaves the guard bodies alone.
* `Machine.nests_step` — what a step does to them.
* `tallied_of_reaches` — how many there are.
-/

namespace Unwinding

open Context

variable {ν : Type}

/-! ## Waiting code and terminations -/

namespace Machine

/-- A termination leaves the waiting code where it is. -/
theorem control_terminate (m : Machine ν) (termination : Termination) :
    (m.terminate termination).control = m.control := by
  unfold terminate installed
  cases m.config with
  | none => rfl
  | some config =>
      dsimp only
      cases config.terminator <;> dsimp only
      · split <;> rfl
      · rfl
      · rfl
      · rfl

/-- So does a failure of the runtime. -/
@[simp] theorem control_fatal (m : Machine ν) (error : Error) (dump : Option String) :
    (m.fatal error dump).control = m.control :=
  control_terminate _ _

/-- So does an exception that nobody catches. -/
@[simp] theorem control_uncaught (m : Machine ν) (exception : Exception) :
    (m.uncaught exception).control = m.control :=
  control_terminate _ _

end Machine

/-! ## The guard bodies that run -/

/-- The scope of which a guard body runs. -/
def Resumption.leaving? : Resumption ν → Option (Leaving ν)
  | .guarding scope => some scope
  | _ => none

namespace Machine

/-- The scopes of which a guard body runs, innermost first. -/
def leavings (m : Machine ν) : List (Leaving ν) :=
  m.control.filterMap Resumption.leaving?

private theorem leavings_of_map {m after : Machine ν}
    (h : after.control.map Resumption.leaving? = m.control.map Resumption.leaving?) :
    after.leavings = m.leavings := by
  have hReduced := congrArg (List.filterMap id) h
  simpa [leavings, List.filterMap_map] using hReduced

private theorem leavings_of_control {m after : Machine ν}
    (h : after.control = m.control) : after.leavings = m.leavings :=
  congrArg (List.filterMap _) h

private theorem leavings_own (m : Machine ν) (name : String) (handle : Handle ν) :
    (m.own name handle).leavings = m.leavings :=
  leavings_of_map (map_own (fun _ _ _ _ _ => rfl) m name handle)

private theorem leavings_take? {m : Machine ν} {name : String}
    {control : List (Resumption ν)} {handle : Handle ν}
    (h : Handle.take? name m.control = some (handle, control)) :
    ({ m with control } : Machine ν).leavings = m.leavings :=
  leavings_of_map (map_take? (fun _ _ _ _ _ => rfl) h)

/-- The scope that the newest waiting code leaves comes first among those that are being
left. -/
theorem leavings_cons {m : Machine ν} {waiting : Resumption ν}
    {below : List (Resumption ν)} (h : m.control = waiting :: below) :
    m.leavings = waiting.leaving?.toList ++ below.filterMap Resumption.leaving? := by
  unfold leavings
  rw [h, List.filterMap_cons]
  cases waiting.leaving? <;> rfl

/-- A step on the context that is answered by code which leaves the guard bodies alone
does so itself. -/
theorem leavings_perform {α : Type} {m : Machine ν} {step : Step α}
    {next : Machine ν → α → Machine ν}
    (h : ∀ context answer, (next (m.store context) answer).leavings = m.leavings) :
    (m.perform step next).leavings = m.leavings := by
  unfold perform
  split
  · exact leavings_of_control (control_fatal _ _ _)
  · split
    · exact leavings_of_control (control_fatal _ _ _)
    · split
      · exact h _ _
      · exact leavings_of_control (control_fatal _ _ _)

section

variable (m : Machine ν)

private theorem leavings_raise (ref : KindRef) (site : Site)
    (message : List (Piece ν)) :
    (m.raise ref site message).leavings = m.leavings := by
  unfold raise
  cases ref.resolve? m.registry.slots with
  | none => exact leavings_of_control (control_fatal _ _ _)
  | some kind => exact leavings_perform fun _ _ => rfl

private theorem leavings_finishRaise (raising : Raising) :
    (m.finishRaise raising).leavings = m.leavings := by
  unfold finishRaise
  refine leavings_perform fun _ uncaught => ?_
  cases uncaught with
  | none => rfl
  | some exception => exact leavings_of_control (control_uncaught _ _)

private theorem leavings_write (raising : Raising) (pieces : List (Piece ν)) :
    (m.write raising pieces).leavings = m.leavings := by
  cases pieces with
  | nil => exact leavings_finishRaise m raising
  | cons piece rest =>
      cases piece with
      | text text =>
          simp only [write]
          split
          · rfl
          · exact leavings_finishRaise m _
      | run body => rfl

private theorem leavings_forward (exception : Exception) :
    (m.forward exception).leavings = m.leavings := by
  refine leavings_perform fun _ uncaught => ?_
  cases uncaught with
  | none => rfl
  | some exception => exact leavings_of_control (control_uncaught _ _)

private theorem leavings_protect (levels : Nat) (site : Site) (mode : Mode)
    (clauses : List (Clause ν)) (body : List (Stmt ν)) :
    (m.protect levels site mode clauses body).leavings = m.leavings := by
  refine leavings_perform fun _ visit => ?_
  dsimp only
  split <;> rfl

private theorem leavings_offer (region : Protected ν) (exception : Exception) :
    (m.offer region exception).leavings = m.leavings := by
  unfold offer
  dsimp only
  split
  · rfl
  · exact leavings_perform fun _ _ => rfl

private theorem leavings_leave (region : Protected ν)
    (outcome : Except Exception (Option ν)) :
    (m.leave region outcome).leavings = m.leavings := by
  refine leavings_perform fun _ _ => ?_
  cases outcome <;> cases region.mode <;> rfl

private theorem leavings_passThrough (region : Protected ν) (payload : Payload) :
    (m.passThrough region payload).leavings = m.leavings := by
  unfold passThrough
  split
  · rfl
  · exact leavings_perform fun _ _ => rfl

private theorem leavings_acquire (name : String) (opening : Opening)
    {next : Machine ν → Machine ν} (h : ∀ m, (next m).leavings = m.leavings) :
    (m.acquire name opening next).leavings = m.leavings := by
  cases opening with
  | thread limits =>
      have hControl := control_openThread m limits
      simp only [acquire]
      split
      · next hOpen =>
          rw [hOpen] at hControl
          exact (h _).trans ((leavings_own _ _ _).trans (leavings_of_control hControl))
      · next hOpen =>
          rw [hOpen] at hControl
          exact (h _).trans (leavings_of_control hControl)
      · next hOpen =>
          rw [hOpen] at hControl
          exact leavings_of_control hControl
  | region site => exact leavings_perform fun _ _ => (h _).trans (leavings_own _ _ _)
  | call site => exact leavings_perform fun _ _ => (h _).trans (leavings_own _ _ _)
  | guards site => exact (h _).trans (leavings_own _ _ _)

private theorem leavings_registerGuard (name : String) (flavor : Flavor)
    (body : List (Stmt ν)) :
    (m.registerGuard name flavor body).leavings = m.leavings := by
  unfold registerGuard
  split
  · dsimp only
    split
    · exact leavings_of_map (map_put (fun _ _ _ _ _ => rfl) _ _ _)
    · exact leavings_perform fun _ _ =>
        leavings_of_map (map_put (fun _ _ _ _ _ => rfl) _ _ _)
  · rfl

/-- To drop a handle does not yet begin to leave a scope: that is the next step. -/
theorem leavings_drop (handle : Handle ν) : (m.drop handle).leavings = m.leavings := by
  cases handle with
  | thread => exact leavings_of_control (control_dropThread m)
  | region visit inUnwinding =>
      simp only [drop]
      split
      · rfl
      · split
        · exact leavings_perform fun _ _ => rfl
        · exact leavings_perform fun _ _ => rfl
  | call entry inUnwinding =>
      simp only [drop]
      split
      · rfl
      · exact leavings_perform fun _ _ => rfl
  | guards scope =>
      simp only [drop]
      split
      · rfl
      · split <;> rfl

private theorem leavings_release (name : String) (how : Closing) :
    (m.release name how).leavings = m.leavings := by
  unfold release
  cases hTake : Handle.take? name m.control with
  | none => rfl
  | some taken =>
      obtain ⟨handle, control⟩ := taken
      have hTaken := leavings_take? hTake
      dsimp only
      split
      · exact hTaken
      · exact (leavings_perform fun _ _ => rfl).trans hTaken
      · exact (leavings_of_control (control_closeThread _)).trans hTaken
      · exact hTaken

/-- No statement begins a guard body. -/
theorem leavings_exec (stmt : Stmt ν) : (m.exec stmt).leavings = m.leavings := by
  cases stmt with
  | raise kind site message => exact leavings_raise m kind site message
  | protect levels site mode clauses body =>
      exact leavings_protect m levels site mode clauses body
  | guard scope flavor body => exact leavings_registerGuard m scope flavor body
  | release name how => exact leavings_release m name how
  | acquire name opening times =>
      cases times with
      | zero => rfl
      | succ times => exact leavings_acquire m name opening fun _ => rfl
  | loop times body => cases times <;> rfl
  | annotate text =>
      simp only [exec]
      split <;> rfl
  | rethrow name =>
      simp only [exec]
      split <;> rfl
  | inspect name =>
      simp only [exec]
      split <;> rfl
  | configure config =>
      simp only [exec]
      split <;> rfl
  | declare entry =>
      simp only [exec]
      split
      · rfl
      · exact leavings_of_control (control_foldl_note _ _)
  | _ => rfl

end

/-- The next step begins a body of a scope that is being left, above the scope without
that body, while the context is free.

The context is free then: a scope that is left while a message is written has no body
begun, because its shield is refused. -/
structure Begins (m : Machine ν) (scope : Leaving ν) (body : List (Stmt ν)) : Prop where
  focus : m.step.focus = .next
  control : m.step.control = .block "" body [] none :: .guarding scope :: m.control
  free : m.inUse = false
  leavesFree : m.step.inUse = false

/-- What a step does to the guard bodies that run. -/
inductive Nests (m : Machine ν) : Prop
  | stays (same : m.step.leavings = m.leavings)
  | begins {scope : Leaving ν} {body : List (Stmt ν)} (begins : m.Begins scope body)
  | ends {scope : Leaving ν} {value : Option ν} {below : List (Resumption ν)}
      (hFocus : m.focus = .deliver value)
      (hControl : m.control = .guarding scope :: below)
      (hBelow : m.step.control = below)
      (hNext : m.step.focus = .leaveScope scope)

/-- A guard body that begins is of a scope that is being left from here on. -/
theorem Begins.leavings {m : Machine ν} {scope : Leaving ν} {body : List (Stmt ν)}
    (h : m.Begins scope body) :
    m.step.leavings = scope :: m.leavings := by
  unfold Machine.leavings
  rw [h.control]
  rfl

section

variable {m : Machine ν} {scope : Leaving ν}

/-- A scope begins its next body if the exit selects it. -/
theorem begins_of_applies {flavor : Flavor} {body : List (Stmt ν)}
    {bodies : List (Flavor × List (Stmt ν))} (hFocus : m.focus = .leaveScope scope)
    (hBodies : scope.bodies = (flavor, body) :: bodies)
    (hApplies : flavor.applies scope.unwinding = true)
    (hGoesOn : m.step.poisoned = false) :
    m.Begins { scope with bodies } body := by
  have hStep : m.step = m.perform (Context.shield scope.mark)
      fun m _ => (m.push (.guarding { scope with bodies })).enterBlock body := by
    simp only [step, hFocus, leaveScope, hBodies, hApplies, if_true]
  have hFree := free_of_performed hStep hGoesOn
  obtain ⟨context, answer, after, -, -, hNext⟩ := performed hStep hGoesOn
  exact ⟨by rw [hNext]; rfl, by rw [hNext]; rfl, hFree, by rw [hNext]; exact hFree⟩

/-- What begins a guard body is that a scope is left. -/
theorem begins_of_shields {mark : Nat} (hClear : m.poisoned = false)
    (hGoesOn : m.step.poisoned = false) (hDeed : m.deed = .shields mark) :
    ∃ scope body, m.Begins scope body := by
  have hCourse := (shift_step hClear hGoesOn).of_shields hDeed
  cases hFocus : m.focus with
  | next =>
      simp only [deed, hFocus] at hDeed
      cases hDeed
  | drop handle =>
      simp only [deed, hFocus] at hDeed
      cases handle with
      | thread =>
          obtain hRests | hCloses := m.closing_eq
          · cases hRests.symm.trans hDeed
          · cases hCloses.symm.trans hDeed
      | region visit inUnwinding =>
          dsimp only at hDeed
          split at hDeed <;> cases hDeed
      | call entry inUnwinding => cases hDeed
      | guards scope => cases hDeed
  | leaveScope scope =>
      simp only [deed, hFocus] at hDeed
      cases hBodies : scope.bodies with
      | nil =>
          rw [hBodies] at hDeed
          cases hDeed
      | cons registered bodies =>
          obtain ⟨flavor, body⟩ := registered
          rw [hBodies] at hDeed
          dsimp only at hDeed
          split at hDeed
          · next hApplies =>
              exact ⟨_, _, begins_of_applies hFocus hBodies hApplies hGoesOn⟩
          · cases hDeed
  | _ =>
      rw [hFocus] at hCourse
      cases hCourse

/-- A scope passes its next body by if the exit does not select it. -/
theorem step_of_not_applies {flavor : Flavor} {body : List (Stmt ν)}
    {bodies : List (Flavor × List (Stmt ν))} (hFocus : m.focus = .leaveScope scope)
    (hBodies : scope.bodies = (flavor, body) :: bodies)
    (hNot : ¬ flavor.applies scope.unwinding = true) :
    m.step = m.goto (.leaveScope { scope with bodies }) := by
  simp only [step, hFocus, leaveScope, hBodies, hNot, if_false, Bool.false_eq_true]

private theorem nests_leaveScope (hFocus : m.focus = .leaveScope scope)
    (hGoesOn : m.step.poisoned = false) : m.Nests := by
  cases hBodies : scope.bodies with
  | nil =>
      refine .stays ?_
      simp only [step, hFocus, leaveScope, hBodies]
      exact leavings_perform fun _ _ => rfl
  | cons registered bodies =>
      obtain ⟨flavor, body⟩ := registered
      by_cases hApplies : flavor.applies scope.unwinding = true
      · exact .begins (begins_of_applies hFocus hBodies hApplies hGoesOn)
      · refine .stays ?_
        rw [step_of_not_applies hFocus hBodies hApplies]
        rfl

private theorem nests_deliver {value : Option ν} (hFocus : m.focus = .deliver value)
    (hGoesOn : m.step.poisoned = false) :
    m.Nests := by
  have hStep : m.step = m.deliver value := by simp only [step, hFocus]
  cases hControl : m.control with
  | nil =>
      refine .stays (hStep ▸ leavings_of_control ?_)
      simp only [deliver, hControl]
      exact hControl
  | cons waiting below =>
      have hLeavings := leavings_cons hControl
      cases waiting with
      | guarding scope =>
          have hPerform : m.step = ({ m with control := below } : Machine ν).perform
              (Context.popDispatch scope.mark .guard)
                fun m _ => m.goto (.leaveScope scope) := by
            rw [hStep]
            simp only [deliver, hControl]
          obtain ⟨context, answer, after, -, -, hNext⟩ := performed hPerform hGoesOn
          exact .ends hFocus hControl (by rw [hNext]; rfl) (by rw [hNext]; rfl)
      | body region =>
          refine .stays ?_
          rw [hStep, hLeavings]
          simp only [deliver, hControl]
          refine leavings_perform fun _ escape => ?_
          cases escape <;> rfl
      | loop times body =>
          refine .stays ?_
          rw [hStep, hLeavings]
          simp only [deliver, hControl]
          cases times <;> rfl
      | thread auto =>
          refine .stays ?_
          rw [hStep, hLeavings]
          simp only [deliver, hControl]
          cases auto with
          | false => rfl
          | true => exact leavings_of_control (control_closeThread _)
      | block word rest handles value =>
          refine .stays (hStep ▸ leavings_of_control ?_)
          simp only [deliver, hControl]
          exact hControl
      | _ =>
          refine .stays ?_
          rw [hStep, hLeavings]
          simp only [deliver, hControl]
          rfl

/-- An unwinding passes what waits. It never passes a guard body, since a guard body
that unwinds terminates the thread. -/
private theorem nests_propagate {payload : Payload} (hFocus : m.focus = .unwind payload)
    (hGoesOn : m.step.poisoned = false) :
    m.Nests := by
  have hStep : m.step = m.propagate payload := by simp only [step, hFocus]
  refine .stays ?_
  rw [hStep] at hGoesOn ⊢
  cases hControl : m.control with
  | nil =>
      refine leavings_of_control ?_
      simp only [propagate, hControl]
      exact hControl
  | cons waiting below =>
      have hLeavings := leavings_cons hControl
      rw [hLeavings]
      cases waiting with
      | guarding scope =>
          simp only [propagate, hControl, guardFailed] at hGoesOn
          cases hGoesOn.symm.trans (poisoned_terminate _ _)
      | block word rest handles value =>
          cases handles with
          | nil => simp only [propagate, hControl]; rfl
          | cons handle handles => simp only [propagate, hControl]; rfl
      | body region =>
          cases payload with
          | raise =>
              simp only [propagate, hControl]
              exact leavings_perform fun _ _ => rfl
          | panic text =>
              simp only [propagate, hControl]
              exact leavings_passThrough _ _ _
          | termination termination =>
              simp only [propagate, hControl]
              exact leavings_passThrough _ _ _
      | handler region =>
          simp only [propagate, hControl]
          exact leavings_passThrough _ _ _
      | attempt resume =>
          simp only [propagate, hControl]
          cases resume <;> rfl
      | thread auto =>
          simp only [propagate, hControl]
          cases auto with
          | false => rfl
          | true => exact leavings_of_control (control_dropThread _)
      | _ =>
          simp only [propagate, hControl]
          rfl

private theorem leavings_proceed (m : Machine ν) : m.proceed.leavings = m.leavings := by
  unfold proceed
  split
  · next hControl => rw [leavings_cons hControl]; rfl
  · next hControl => rw [leavings_cons hControl]; rfl
  · next hControl => rw [leavings_cons hControl]; rfl
  · next hControl => rw [leavings_cons hControl]; rfl
  · next hControl => rw [leavings_cons hControl]; rfl
  · rfl

private theorem leavings_complete (m : Machine ν) (value : Option (Option ν)) :
    (m.complete value).leavings = m.leavings := by
  unfold complete
  split
  · next hControl => rw [leavings_cons hControl]; rfl
  · rfl

/-- A step that does not terminate the thread begins a guard body, ends the innermost
one, or leaves them alone. -/
theorem nests_step (hGoesOn : m.step.poisoned = false) : m.Nests := by
  cases hFocus : m.focus with
  | deliver value => exact nests_deliver hFocus hGoesOn
  | unwind payload => exact nests_propagate hFocus hGoesOn
  | leaveScope scope => exact nests_leaveScope hFocus hGoesOn
  | next => exact .stays (by simp only [step, hFocus]; exact leavings_proceed m)
  | exec stmt => exact .stays (by simp only [step, hFocus]; exact leavings_exec m stmt)
  | complete value =>
      exact .stays (by simp only [step, hFocus]; exact leavings_complete m value)
  | offer region exception =>
      exact .stays
        (by simp only [step, hFocus]; exact leavings_offer m region exception)
  | leave region outcome =>
      exact .stays (by simp only [step, hFocus]; exact leavings_leave m region outcome)
  | forward exception =>
      exact .stays (by simp only [step, hFocus]; exact leavings_forward m exception)
  | drop handle =>
      exact .stays (by simp only [step, hFocus]; exact leavings_drop m handle)
  | write raising pieces =>
      exact .stays (by simp only [step, hFocus]; exact leavings_write m raising pieces)
  | stopped how => exact .stays (by simp only [step, hFocus])

end

end Machine

/-! ## Guard bodies on the ledger -/

/-- Whether it is a guard body that runs here. -/
def Extent.isGuardBody : Extent → Bool
  | .guardBody _ => true
  | _ => false

/-- The same, of the code that waits. -/
def Joint.isGuardBody : Joint → Bool
  | .guarding => true
  | _ => false

/-- A deed that neither begins nor ends a guard body leaves as many of them on the
ledger as there were. What it closes is an extent of another sort. -/
theorem Deed.countP_guardBody {deed : Deed} {ledger : List Extent}
    (hFits : deed.Fits ledger) (hShields : ∀ mark, deed ≠ .shields mark)
    (hUnshields : ∀ mark, deed ≠ .unshields mark) :
    (deed.move.apply ledger).countP Extent.isGuardBody =
      ledger.countP Extent.isGuardBody := by
  have closed {top : Extent} (hHead : ledger.head? = some top)
    (hOther : top.isGuardBody = false) :
      ledger.tail.countP Extent.isGuardBody = ledger.countP Extent.isGuardBody := by
    obtain ⟨rest, rfl⟩ := List.head?_eq_some_iff.1 hHead
    rw [List.tail_cons, List.countP_cons_of_neg (by simp [hOther])]
  have turned {visit : Visit} {old : Phase} (new : Phase)
      (hHead : ledger.head? = some (.protecting visit old)) :
      ((Move.turns new).apply ledger).countP Extent.isGuardBody =
        ledger.countP Extent.isGuardBody := by
    obtain ⟨rest, rfl⟩ := List.head?_eq_some_iff.1 hHead
    rw [Move.apply, List.countP_cons_of_neg (by simp [Extent.isGuardBody]),
      List.countP_cons_of_neg (by simp [Extent.isGuardBody])]
  cases deed with
  | opens => exact List.countP_cons_of_neg (by simp [Extent.isGuardBody])
  | closes => exact closed hFits rfl
  | enters visit =>
      refine List.countP_cons_of_neg ?_
      cases hExplicit : visit.explicit <;> simp [entered, Extent.isGuardBody]
  | leaves visit unwinding fate =>
      obtain hRegion | ⟨phase, hProtecting⟩ := hFits
      · exact closed hRegion rfl
      · exact closed hProtecting rfl
  | abandons visit => exact closed hFits rfl
  | catches visit exception => exact turned _ hFits
  | reports visit exception => exact turned _ hFits
  | handles visit exception name => exact turned _ hFits
  | opensScope mark => exact List.countP_cons_of_neg (by simp [Extent.isGuardBody])
  | closesScope mark => exact closed hFits rfl
  | shields mark => exact absurd rfl (hShields mark)
  | unshields mark => exact absurd rfl (hUnshields mark)
  | entersCall entry => exact List.countP_cons_of_neg (by simp [Extent.isGuardBody])
  | leavesCall entry => exact closed hFits rfl
  | _ => rfl

private theorem Deed.IsMild.countP_guardBody {closing : Option Extent} {deed : Deed}
    {ledger : List Extent} (h : deed.IsMild closing) (hFits : deed.Fits ledger) :
    (deed.move.apply ledger).countP Extent.isGuardBody =
      ledger.countP Extent.isGuardBody := by
  refine Deed.countP_guardBody hFits ?_ ?_
  · rintro mark rfl
    exact h
  · rintro mark rfl
    exact h

/-- The waiting code and the ledger go on to agree on how many guard bodies run. -/
theorem Shift.countP_guardBody {closing : Option Extent} {deed : Deed}
    {before after : List Joint} {course next : Course} {active left : Nat}
    {ledger : List Extent} (h : Shift closing deed before course active after next left)
    (hFits : deed.Fits ledger)
    (hCount : before.countP Joint.isGuardBody = ledger.countP Extent.isGuardBody) :
    after.countP Joint.isGuardBody =
      (deed.move.apply ledger).countP Extent.isGuardBody := by
  have other {joints : List Joint} {top : Joint} (hTop : top.isGuardBody = false) :
      (top :: joints).countP Joint.isGuardBody = joints.countP Joint.isGuardBody :=
    List.countP_cons_of_neg (by simp [hTop])
  induction h with
  | runs isMild => exact hCount.trans (isMild.countP_guardBody hFits).symm
  | waits _ ih => exact (other rfl).trans (ih hFits hCount)
  | pauses _ ih => exact ih hFits hCount
  | pops isMild =>
      exact ((other rfl).symm.trans hCount).trans (isMild.countP_guardBody hFits).symm
  | goesOn => exact hCount
  | ends => exact (other rfl).symm.trans hCount
  | drops isMild => exact hCount.trans (isMild.countP_guardBody hFits).symm
  | enters isProtected =>
      exact ((other rfl).trans hCount).trans
        (Deed.countP_guardBody hFits (by simp) (by simp)).symm
  | leaves =>
      exact ((other rfl).symm.trans hCount).trans
        (Deed.countP_guardBody hFits (by simp) (by simp)).symm
  | @raises deed joints active isRaise =>
      cases deed <;> first | exact hCount | exact isRaise.elim
  | panics isMild isPanic => exact hCount.trans (isMild.countP_guardBody hFits).symm
  | passes => exact (other rfl).symm.trans hCount
  | passesRegion =>
      exact ((other rfl).symm.trans hCount).trans
        (Deed.countP_guardBody hFits (by simp) (by simp)).symm
  | overtakes => exact (other rfl).symm.trans hCount
  | holds => exact (other rfl).trans hCount
  | releases isHeld => exact (other rfl).symm.trans hCount
  | resumes => exact (other rfl).symm.trans hCount
  | catches =>
      exact hCount.trans (Deed.countP_guardBody hFits (by simp) (by simp)).symm
  | stopsRaise => exact (other rfl).symm.trans hCount
  | defersRaise => exact ((other rfl).trans (other rfl).symm).trans hCount
  | stopsPanic isPanic => exact (other rfl).symm.trans hCount
  | defersPanic isPanic => exact ((other rfl).trans (other rfl).symm).trans hCount
  | shields =>
      rw [Deed.move, Move.apply, List.countP_cons_of_pos rfl,
        List.countP_cons_of_pos rfl, hCount]
  | unshields =>
      obtain ⟨rest, rfl⟩ := List.head?_eq_some_iff.1 hFits
      rw [List.countP_cons_of_pos rfl, List.countP_cons_of_pos rfl] at hCount
      exact Nat.succ.inj hCount
  | halts isMild => exact hCount.trans (isMild.countP_guardBody hFits).symm
  | loses isMild isTop =>
      refine Eq.trans ?_ (isMild.countP_guardBody hFits).symm
      obtain rfl | ⟨payload, rfl⟩ := isTop
      · exact (other rfl).symm.trans hCount
      · exact (other rfl).symm.trans hCount

private theorem Machine.length_leavings (m : Machine ν) :
    m.joints.countP Joint.isGuardBody = m.leavings.length := by
  have hBusy : m.focus.joints.countP Joint.isGuardBody = 0 := by
    cases m.focus <;> rfl
  rw [Machine.joints, List.countP_append, hBusy, Nat.zero_add, Machine.leavings]
  induction m.control with
  | nil => rfl
  | cons waiting below ih =>
      cases waiting with
      | guarding scope =>
          rw [List.map_cons, List.countP_cons_of_pos rfl, ih]
          rfl
      | _ =>
          exact (List.countP_cons_of_neg
            (by simp [Resumption.joint, Joint.isGuardBody])).trans ih

/-- The state of a machine in a run that closes in turn: its stacks are nested, and as
many guard bodies run as the ledger says. -/
structure Tallied (m : Machine ν) (ledger : List Extent) : Prop where
  stands : Stands m ledger
  count : ledger.countP Extent.isGuardBody = m.leavings.length

section

variable {m : Machine ν} {ledger : List Extent}

/-- What a step adds to the scopes that are being left, it adds to the guard bodies on
the ledger. -/
theorem Tallied.step (h : Tallied m ledger) (hTurn : m.InTurn ledger)
    (hGoesOn : m.step.poisoned = false) : Tallied m.step (m.move.apply ledger) := by
  have hCount : m.joints.countP Joint.isGuardBody = ledger.countP Extent.isGuardBody :=
    m.length_leavings.trans h.count.symm
  have hAfter := (Machine.shift_step h.stands.clear hGoesOn).countP_guardBody
    (h.stands.fits hTurn) hCount
  refine ⟨h.stands.step hTurn hGoesOn, ?_⟩
  rw [(Machine.did_step h.stands.clear hGoesOn).move, ← hAfter, Machine.length_leavings]

/-- A program starts with no guard body running. -/
theorem tallied_start (process : Process) (auto : Bool) (limits : Option Limits)
    (body : List (Stmt ν)) :
    Tallied (Machine.start process auto limits body)
      (Machine.start process auto limits body).opened := by
  refine ⟨stands_start process auto limits body, ?_⟩
  have hOpened :
      (Machine.start process auto limits body).opened.countP Extent.isGuardBody =
      0 := by
    unfold Machine.opened
    split <;> rfl
  rw [hOpened, ← Machine.length_leavings]
  obtain hJoints | hJoints := Machine.joints_start process auto limits body
  · rw [hJoints]
    rfl
  · rw [hJoints]
    rfl

/-- All along a run that closes in turn, as many guard bodies run as the ledger says. -/
theorem tallied_of_reaches {start : Machine ν} {opened : List Extent}
    (h : Reaches Machine.InTurn start opened m ledger) (hStart : Tallied start opened) :
    Tallied m ledger := by
  induction h with
  | start => exact hStart
  | step before isAllowed goesOn ih => exact ih.step isAllowed goesOn

end

end Unwinding
