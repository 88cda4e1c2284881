import Unwinding.Proofs.Flight
import Unwinding.Proofs.GuardBodies

/-!
# The code beneath a guard body

While a guard body runs, the code that waits beneath it stays where it is. Only the
handles of its blocks may change: a guard body may register something in a scope further
out, or forget a handle that it finds there. So the code is compared without its handles
(`Machine.bare`), and then a step takes off the innermost piece of it at most, and puts
other pieces on top (`Machine.covers_beneath`). The same holds of any code that was put
on top of other code.

The law about guard bodies needs one thing more. The code of a guard body could end with
the code of another one that it began itself, so it is counted how many of them run, in
the code and on the ledger of the run (`Tallied`).

## Main results

* `Machine.covers_beneath` — what waits beneath the innermost piece is still there after
  a step.
* `Machine.covers_step` — what waits beneath a guard body is still there after a step.
* `Shielded.resumes` — the scope of a guard body that returns goes on where it was.
-/

namespace Unwinding

open Context

variable {ν : Type}

/-! ## Code without its handles -/

/-- Code that waits, without the handles of its blocks. -/
def Resumption.bare : Resumption ν → Resumption ν
  | .block word rest _ value => .block word rest [] value
  | waiting => waiting

/-- The guard bodies that run do not show in the handles. -/
theorem Resumption.leaving?_bare (waiting : Resumption ν) :
    waiting.bare.leaving? = waiting.leaving? := by
  cases waiting <;> rfl

private theorem Resumption.bare_guarding {waiting : Resumption ν} {scope : Leaving ν}
    (h : waiting.bare = .guarding scope) : waiting = .guarding scope := by
  cases waiting <;> first | exact h | cases h

namespace Machine

/-- The code that waits, without the handles of its blocks. -/
def bare (m : Machine ν) : List (Resumption ν) :=
  m.control.map Resumption.bare

/-- A machine has not come back to code that waits. -/
def Covers (under : List (Resumption ν)) (m : Machine ν) : Prop :=
  under <:+ m.bare

section

variable {under : List (Resumption ν)} {m after : Machine ν}

private theorem leavings_bare (m : Machine ν) :
    m.bare.filterMap Resumption.leaving? = m.leavings := by
  rw [bare, List.filterMap_map, leavings]
  exact List.filterMap_congr fun waiting _ => waiting.leaving?_bare

private theorem covers_of_bare (hSame : after.bare = m.bare) (h : m.Covers under) :
    after.Covers under := by
  rw [Covers, hSame]
  exact h

private theorem covers_of_control (hSame : after.control = m.control)
    (h : m.Covers under) : after.Covers under :=
  covers_of_bare (congrArg (List.map _) hSame) h

private theorem covers_push (waiting : Resumption ν) (h : m.Covers under) :
    (m.push waiting).Covers under :=
  h.trans (List.suffix_cons _ _)

private theorem covers_own (name : String) (handle : Handle ν) (h : m.Covers under) :
    (m.own name handle).Covers under :=
  covers_of_bare (map_own (fun _ _ _ _ _ => rfl) m name handle) h

private theorem covers_put (name : String) (handle : Handle ν) (h : m.Covers under) :
    under <:+ (Handle.put name handle m.control).map Resumption.bare := by
  rw [map_put fun _ _ _ _ _ => rfl]
  exact h

private theorem covers_fatal (error : Error) (dump : Option String)
    (h : m.Covers under) :
    (m.fatal error dump).Covers under :=
  covers_of_control (control_fatal _ _ _) h

/-- A step on the context covers what the code does that goes on with its answer. -/
private theorem covers_perform {α : Type} {step : Step α}
    {next : Machine ν → α → Machine ν} (h : m.Covers under)
    (hNext : ∀ context answer, (next (m.store context) answer).Covers under) :
    (m.perform step next).Covers under := by
  unfold perform
  split
  · exact covers_fatal _ _ h
  · split
    · exact covers_fatal _ _ h
    · split
      · exact hNext _ _
      · exact covers_fatal _ _ h

/-! ## Code that takes nothing off -/

private theorem covers_uncaught (exception : Exception) (h : m.Covers under) :
    (m.uncaught exception).Covers under :=
  covers_of_control (control_uncaught _ _) h

private theorem covers_raise (ref : KindRef) (site : Site) (message : List (Piece ν))
    (h : m.Covers under) : (m.raise ref site message).Covers under := by
  unfold raise
  cases ref.resolve? m.registry.slots with
  | none => exact covers_fatal _ _ h
  | some kind => exact covers_perform h fun _ _ => h

private theorem covers_finishRaise (raising : Raising) (h : m.Covers under) :
    (m.finishRaise raising).Covers under := by
  unfold finishRaise
  refine covers_perform h fun _ uncaught => ?_
  cases uncaught with
  | none => exact h
  | some exception => exact covers_uncaught _ h

private theorem covers_write (raising : Raising) (pieces : List (Piece ν))
    (h : m.Covers under) : (m.write raising pieces).Covers under := by
  cases pieces with
  | nil => exact covers_finishRaise raising h
  | cons piece rest =>
      cases piece with
      | text text =>
          simp only [write]
          split
          · exact h
          · exact covers_finishRaise _ h
      | run body => exact covers_push _ (covers_push _ h)

private theorem covers_forward (exception : Exception) (h : m.Covers under) :
    (m.forward exception).Covers under := by
  refine covers_perform h fun _ uncaught => ?_
  cases uncaught with
  | none => exact h
  | some exception => exact covers_uncaught _ h

private theorem covers_protect (levels : Nat) (site : Site) (mode : Mode)
    (clauses : List (Clause ν)) (body : List (Stmt ν)) (h : m.Covers under) :
    (m.protect levels site mode clauses body).Covers under := by
  refine covers_perform h fun _ visit => ?_
  dsimp only
  split
  · exact covers_push _ h
  · exact covers_push _ (covers_push _ h)

private theorem covers_offer (region : Protected ν) (exception : Exception)
    (h : m.Covers under) : (m.offer region exception).Covers under := by
  unfold offer
  dsimp only
  split
  · exact h
  · exact covers_perform h fun _ _ => covers_push _ (covers_push _ h)

private theorem covers_leave (region : Protected ν)
    (outcome : Except Exception (Option ν)) (h : m.Covers under) :
    (m.leave region outcome).Covers under := by
  refine covers_perform h fun _ _ => ?_
  cases outcome <;> cases region.mode <;> exact h

private theorem covers_passThrough (region : Protected ν) (payload : Payload)
    (h : m.Covers under) : (m.passThrough region payload).Covers under := by
  unfold passThrough
  split
  · exact h
  · exact covers_perform h fun _ _ => h

private theorem covers_acquire (name : String) (opening : Opening) (times : Nat)
    (h : m.Covers under) :
    (m.acquire name opening fun m =>
      m.goto (.exec (.acquire name opening times))).Covers under := by
  cases opening with
  | thread limits =>
      have hControl := control_openThread m limits
      simp only [acquire]
      split
      · next hOpen =>
          rw [hOpen] at hControl
          exact covers_own _ _ (covers_of_control hControl h)
      · next hOpen =>
          rw [hOpen] at hControl
          exact covers_of_control hControl h
      · next hOpen =>
          rw [hOpen] at hControl
          exact covers_of_control hControl h
  | region site => exact covers_perform h fun _ _ => covers_own _ _ h
  | call site => exact covers_perform h fun _ _ => covers_own _ _ h
  | guards site => exact covers_own _ _ h

private theorem covers_registerGuard (name : String) (flavor : Flavor)
    (body : List (Stmt ν)) (h : m.Covers under) :
    (m.registerGuard name flavor body).Covers under := by
  unfold registerGuard
  split
  · dsimp only
    split
    · exact covers_put _ _ h
    · exact covers_perform h fun _ _ => covers_put _ _ h
  · exact h

private theorem covers_leaveScope (scope : Leaving ν) (h : m.Covers under) :
    (m.leaveScope scope).Covers under := by
  unfold leaveScope
  split
  · exact covers_perform h fun _ _ => h
  · split
    · exact covers_perform h fun _ _ => covers_push _ (covers_push _ h)
    · exact h

private theorem covers_drop (handle : Handle ν) (h : m.Covers under) :
    (m.drop handle).Covers under := by
  cases handle with
  | thread => exact covers_of_control (control_dropThread m) h
  | region visit inUnwinding =>
      simp only [drop]
      split
      · exact h
      · split
        · exact covers_perform h fun _ _ => h
        · exact covers_perform h fun _ _ => h
  | call entry inUnwinding =>
      simp only [drop]
      split
      · exact h
      · exact covers_perform h fun _ _ => h
  | guards scope =>
      simp only [drop]
      split
      · exact h
      · split <;> exact h

private theorem covers_release (name : String) (how : Closing) (h : m.Covers under) :
    (m.release name how).Covers under := by
  unfold release
  cases hTake : Handle.take? name m.control with
  | none => exact h
  | some taken =>
      obtain ⟨handle, control⟩ := taken
      have hTaken : ({ m with control } : Machine ν).Covers under :=
        covers_of_bare (map_take? (fun _ _ _ _ _ => rfl) hTake) h
      dsimp only
      split
      · exact hTaken
      · exact covers_perform hTaken fun _ _ => hTaken
      · exact covers_of_control (control_closeThread _) hTaken
      · exact covers_push _ hTaken

private theorem covers_exec (stmt : Stmt ν) (h : m.Covers under) :
    (m.exec stmt).Covers under := by
  cases stmt with
  | raise kind site message => exact covers_raise kind site message h
  | protect levels site mode clauses body =>
      exact covers_protect levels site mode clauses body h
  | guard scope flavor body => exact covers_registerGuard scope flavor body h
  | release name how => exact covers_release name how h
  | acquire name opening times =>
      cases times with
      | zero => exact h
      | succ times => exact covers_acquire name opening times h
  | loop times body =>
      cases times with
      | zero => exact h
      | succ times => exact covers_push _ (covers_push _ h)
  | attempt body resume => exact covers_push _ (covers_push _ h)
  | block body => exact covers_push _ h
  | annotate text =>
      simp only [exec]
      split <;> exact h
  | rethrow name =>
      simp only [exec]
      split <;> exact h
  | inspect name =>
      simp only [exec]
      split <;> exact h
  | configure config =>
      simp only [exec]
      split <;> exact h
  | declare entry =>
      simp only [exec]
      split
      · exact h
      · exact covers_of_control (control_foldl_note _ _) h
  | _ => exact h

end

/-! ## Code that takes the innermost piece off -/

section

variable {under : List (Resumption ν)} {m : Machine ν} {waiting : Resumption ν}
  {below : List (Resumption ν)}

private theorem covers_whole (hControl : m.control = waiting :: below)
    (h : under <:+ below.map Resumption.bare) : m.Covers under := by
  rw [Covers, bare, hControl]
  exact h.trans (List.suffix_cons _ _)

private theorem covers_proceed (hControl : m.control = waiting :: below)
    (h : under <:+ below.map Resumption.bare) : m.proceed.Covers under := by
  have hWhole := covers_whole hControl h
  unfold proceed
  split
  · next hBlock =>
      cases hControl.symm.trans hBlock
      exact h.trans (List.suffix_cons _ _)
  · next hBlock =>
      cases hControl.symm.trans hBlock
      exact h.trans (List.suffix_cons _ _)
  · next hBlock =>
      cases hControl.symm.trans hBlock
      exact h
  · next hBlock =>
      cases hControl.symm.trans hBlock
      exact h
  · next hBlock =>
      cases hControl.symm.trans hBlock
      exact h
  · exact hWhole

private theorem covers_complete (value : Option (Option ν))
    (hControl : m.control = waiting :: below)
    (h : under <:+ below.map Resumption.bare) :
    (m.complete value).Covers under := by
  have hWhole := covers_whole hControl h
  unfold complete
  split
  · next hBlock =>
      cases hControl.symm.trans hBlock
      exact h.trans (List.suffix_cons _ _)
  · exact hWhole

private theorem covers_deliver (value : Option ν)
    (hControl : m.control = waiting :: below)
    (h : under <:+ below.map Resumption.bare) :
    (m.deliver value).Covers under := by
  have hWhole := covers_whole hControl h
  have hRest : ({ m with control := below } : Machine ν).Covers under := h
  unfold deliver
  rw [hControl]
  cases waiting with
  | block word rest handles old => exact hWhole
  | body region =>
      refine covers_perform hRest fun _ escape => ?_
      cases escape <;> exact hRest
  | guarding scope => exact covers_perform hRest fun _ _ => hRest
  | loop times body =>
      cases times with
      | zero => exact hRest
      | succ times => exact covers_push _ (covers_push _ hRest)
  | thread auto =>
      dsimp only
      split
      · exact covers_of_control (control_closeThread _) hRest
      · exact hRest
  | _ => exact hRest

private theorem covers_propagate (payload : Payload)
    (hControl : m.control = waiting :: below) (h : under <:+ below.map Resumption.bare)
    (hGoesOn : (m.propagate payload).poisoned = false) :
    (m.propagate payload).Covers under := by
  have hRest : ({ m with control := below } : Machine ν).Covers under := h
  unfold propagate at hGoesOn ⊢
  rw [hControl] at hGoesOn ⊢
  dsimp only at hGoesOn
  cases waiting with
  | block word rest handles value =>
      cases handles with
      | nil => exact hRest
      | cons handle handles => exact covers_push _ (covers_push _ hRest)
  | body region =>
      cases payload with
      | raise => exact covers_perform hRest fun _ _ => hRest
      | panic text => exact covers_passThrough _ _ hRest
      | termination termination => exact covers_passThrough _ _ hRest
  | handler region => exact covers_passThrough _ _ hRest
  | guarding scope => cases hGoesOn.symm.trans (poisoned_terminate _ _)
  | attempt resume =>
      cases resume with
      | none => exact hRest
      | some between => exact covers_push _ (covers_push _ hRest)
  | thread auto =>
      dsimp only
      split
      · exact covers_of_control (control_dropThread _) hRest
      · exact hRest
  | _ => exact hRest

/-- A step takes off the innermost piece of the code that waits, at most. What waits
beneath that piece is still there. -/
theorem covers_beneath (hControl : m.control = waiting :: below)
    (h : under <:+ below.map Resumption.bare) (hGoesOn : m.step.poisoned = false) :
    m.step.Covers under := by
  have hWhole := covers_whole hControl h
  unfold step at hGoesOn ⊢
  cases hFocus : m.focus with
  | next => exact covers_proceed hControl h
  | exec stmt => exact covers_exec stmt hWhole
  | complete value => exact covers_complete value hControl h
  | deliver value => exact covers_deliver value hControl h
  | unwind payload =>
      rw [hFocus] at hGoesOn
      exact covers_propagate payload hControl h hGoesOn
  | offer region exception => exact covers_offer region exception hWhole
  | leave region outcome => exact covers_leave region outcome hWhole
  | forward exception => exact covers_forward exception hWhole
  | drop handle => exact covers_drop handle hWhole
  | leaveScope scope => exact covers_leaveScope scope hWhole
  | write raising pieces => exact covers_write raising pieces hWhole
  | stopped how => exact hWhole

end

section

variable {scope : Leaving ν} {under : List (Resumption ν)} {m : Machine ν}

/-- Code that is covered by more than the guard body itself is covered by what waits
under the innermost piece. -/
private theorem covers_cases {waiting : Resumption ν} {below : List (Resumption ν)}
    (hControl : m.control = waiting :: below)
    (h : m.Covers (.guarding scope :: under)) :
    (waiting = .guarding scope ∧ below.map Resumption.bare = under) ∨
      (.guarding scope :: under) <:+ below.map Resumption.bare := by
  rw [Covers, bare, hControl, List.map_cons] at h
  obtain hWhole | hRest := List.suffix_cons_iff.1 h
  · obtain ⟨hTop, hBelow⟩ := List.cons.inj hWhole
    exact .inl ⟨Resumption.bare_guarding hTop.symm, hBelow.symm⟩
  · exact .inr hRest

/-- What waits beneath a guard body is still there after a step that does not end the
body. -/
theorem covers_step (h : m.Covers (.guarding scope :: under))
    (hGoesOn : m.step.poisoned = false)
    (hBody : ∀ value below, m.focus = .deliver value →
      m.control = .guarding scope :: below → below.map Resumption.bare ≠ under) :
    m.step.Covers (.guarding scope :: under) := by
  cases hControl : m.control with
  | nil =>
      rw [Covers, bare, hControl] at h
      cases List.suffix_nil.1 h
  | cons waiting below =>
      obtain ⟨rfl, hBelow⟩ | hRest := covers_cases hControl h
      · unfold step at hGoesOn ⊢
        cases hFocus : m.focus with
        | next =>
            simp only [proceed, hControl]
            exact h
        | exec stmt => exact covers_exec stmt h
        | complete value =>
            simp only [complete, hControl]
            exact h
        | deliver value => exact absurd hBelow (hBody value below hFocus hControl)
        | unwind payload =>
            simp only [hFocus, propagate, hControl] at hGoesOn
            cases hGoesOn.symm.trans (poisoned_terminate _ _)
        | offer region exception => exact covers_offer region exception h
        | leave region outcome => exact covers_leave region outcome h
        | forward exception => exact covers_forward exception h
        | drop handle => exact covers_drop handle h
        | leaveScope other => exact covers_leaveScope other h
        | write raising pieces => exact covers_write raising pieces h
        | stopped how => exact h
      · exact covers_beneath hControl hRest hGoesOn

end

end Machine

/-! ## Guard bodies that return -/

section

variable {m last : Machine ν} {outer inner : List Extent}

/-- The scopes that wait, counted without the handles. -/
private theorem length_leavings_of_bare {below under : List (Resumption ν)}
    (h : below.map Resumption.bare = under) :
    (below.filterMap Resumption.leaving?).length =
      (under.filterMap Resumption.leaving?).length := by
  rw [← h, List.filterMap_map]
  exact congrArg List.length
    (List.filterMap_congr fun waiting _ => waiting.leaving?_bare.symm)

/-- All along a guard body the code beneath it waits. A step that came back to it would
have returned from the body, whose extent is still open. -/
private theorem Guarded.covers {ground : Ground} {found : List Raised} {mark : Nat}
    {scope : Leaving ν} {under : List (Resumption ν)} {start : Machine ν}
    {opened ledger : List Extent}
    (h : Reaches (Machine.Within outer) start opened m ledger)
    (hStart : Guarded ground found start opened) (hFirm : ground.Firm)
    (hGround : ground.ledger = .guardBody mark :: outer)
    (hOpen : outer.length < ledger.length) (hTallied : Tallied start opened)
    (hCovers : start.Covers (.guarding scope :: under))
    (hCount : (under.filterMap Resumption.leaving?).length =
      outer.countP Extent.isGuardBody) :
    Tallied m ledger ∧ m.Covers (.guarding scope :: under) := by
  induction h with
  | start => exact ⟨hTallied, hCovers⟩
  | @step m ledger before isAllowed goesOn ih =>
      obtain ⟨hNow, hOver⟩ := ih isAllowed.2
      have hAfter := hNow.step isAllowed.1 goesOn
      refine ⟨hAfter, Machine.covers_step hOver goesOn
        fun value below hFocus hControl hBelow => ?_⟩
      obtain ⟨_, _, _, hLayered, -⟩ :=
        (Guarded.reaches (before.step isAllowed goesOn) hStart hFirm ⟨mark, hGround⟩
          hOpen).nested
      obtain ⟨above, hLedger⟩ := hLayered.suffix
      have hLeft : m.step.control = below := by
        have hStep : m.step = ({ m with control := below } : Machine ν).perform
            (Context.popDispatch scope.mark .guard)
            fun m _ => m.goto (.leaveScope scope) := by
          simp only [Machine.step, hFocus, Machine.deliver, hControl]
        obtain ⟨_, _, _, -, -, hNext⟩ := Machine.performed hStep goesOn
        rw [hNext]
        rfl
      have hFew : m.step.leavings.length = outer.countP Extent.isGuardBody := by
        rw [Machine.leavings, hLeft, length_leavings_of_bare hBelow, hCount]
      have hMany := hAfter.count
      rw [hFew, hLedger, hGround, List.countP_append,
        List.countP_cons_of_pos (by rfl)] at hMany
      omega

/-- The scope of a guard body that returns goes on with the bodies that are left, and
the code that waits beneath has only its handles changed. -/
theorem Shielded.resumes {known : Lineage} (h : Shielded m last outer inner)
    (hTallied : Tallied m outer) (hKnown : Remembers known m) :
    (∃ scope, last.step.focus = .leaveScope scope) ∧ last.step.bare = m.bare := by
  have hStands := hTallied.stands
  obtain ⟨mark, hDeed⟩ := h.begins
  obtain ⟨scope, body, hBegins⟩ :=
    Machine.begins_of_shields hStands.clear h.goesOn hDeed
  have hScope : outer.head? = some (.scope mark) := by
    have hFits := hStands.fits h.isTurn
    rw [hDeed] at hFits
    exact hFits
  obtain ⟨before, hContext⟩ : ∃ before, m.context = some before := by
    cases hContext : m.context with
    | some before => exact ⟨before, rfl⟩
    | none =>
        rw [hStands.closed hContext] at hScope
        cases hScope
  have hFirm := (hStands.nested before hContext).firm_guardBody hScope
  have hStart := guarded_of_shields hStands hKnown hContext h.isTurn hDeed h.goesOn
  have hGuarded := Guarded.reaches h.inside hStart hFirm ⟨mark, rfl⟩ h.isLast.2
  have hCount : (m.bare.filterMap Resumption.leaving?).length =
      outer.countP Extent.isGuardBody := by
    rw [Machine.leavings_bare, hTallied.count]
  have hOver : m.step.Covers (.guarding scope :: m.bare) := by
    have hBare : m.step.bare =
        .block "" body [] none :: .guarding scope :: m.bare :=
      congrArg (List.map Resumption.bare) hBegins.control
    rw [Machine.Covers, hBare]
    exact List.suffix_cons _ _
  obtain ⟨hLast, hCovers⟩ := Guarded.covers h.inside hStart hFirm rfl h.isLast.2
    (hTallied.step h.isTurn h.goesOn) hOver hCount
  obtain ⟨rfl, hOuter, -⟩ := hGuarded.ends h.isLast h.returns h.closes
  have hBefore := hLast.count
  rw [List.countP_cons_of_pos (by rfl)] at hBefore
  have hAfter := (hLast.step h.isLast.1 h.returns).count
  rw [hOuter] at hAfter
  cases Machine.nests_step h.returns with
  | stays same =>
      rw [same] at hAfter
      omega
  | begins more =>
      rw [more.leavings, List.length_cons] at hAfter
      omega
  | @ends other value below hFocus hControl hBelow hNext =>
      obtain ⟨hTop, hRest⟩ | hDeeper := Machine.covers_cases hControl hCovers
      · exact ⟨⟨other, hNext⟩, by rw [Machine.bare, hBelow, hRest]⟩
      · obtain ⟨above, hSplit⟩ := hDeeper
        have hMore := length_leavings_of_bare hSplit.symm
        rw [Machine.leavings, hControl] at hBefore
        rw [List.filterMap_append, List.length_append] at hMore
        simp only [List.filterMap_cons, Resumption.leaving?, List.length_cons]
          at hBefore hMore
        omega

/-- No step makes a machine heavier. -/
private theorem Machine.weight_step_le (m : Machine ν) : m.step.weight ≤ m.weight := by
  by_cases hStop : m.IsStopped
  · obtain ⟨how, hFocus⟩ := hStop
    simp only [step, hFocus, Nat.le_refl]
  · exact Nat.le_of_lt (weight_step_lt m hStop)

private theorem Reaches.weight_le {allowed : Machine ν → List Extent → Prop}
    {start : Machine ν} {opened ledger : List Extent}
    (h : Reaches allowed start opened m ledger) : m.weight ≤ start.weight := by
  induction h with
  | start => exact Nat.le_refl _
  | @step m ledger _ _ _ ih => exact Nat.le_trans m.weight_step_le ih

/-- A guard body that returns leaves the machine lighter. -/
theorem Shielded.weight_lt (h : Shielded m last outer inner) :
    last.step.weight < m.weight := by
  have hBegins : m.step.weight < m.weight := by
    refine Machine.weight_step_lt m fun ⟨how, hFocus⟩ => ?_
    obtain ⟨mark, hDeed⟩ := h.begins
    simp only [Machine.deed, hFocus] at hDeed
    cases hDeed
  have hInside := h.inside.weight_le
  have hReturns := last.weight_step_le
  omega

end

end Unwinding
