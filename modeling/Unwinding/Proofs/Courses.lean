import Unwinding.Proofs.Deeds
import Unwinding.Proofs.WellFormed

/-!
# The code that waits, step by step

Code waits for other code in few ways, and a step changes only what waits on top. Of
each piece that waits only its `Joint` matters here: the visit of a region, an unwinding
that is held up or stopped, and where guard bodies run. `Shift` says all that a step can
do to these together with its deed, and `Machine.shift_step` is the one place where the
steps are gone through. Laws about the code that waits are proved by cases on the shift.

The first of them is about the exceptions that are on their way. `Flow` says that a
record is in flight only while a raise is on its way, and that a guard body parks a
record only if it holds up a raise. In `Sound` this is followed together with what the
stacks hold, and only as long as no foreign code stops a raise; here it is followed by
itself, in any run. A raise that foreign code stops leaves its record behind, in flight
or not; as far as the code goes, it is no longer on its way.

## Main results

* `Machine.shift_step` — what a step does to the code that waits.
* `Machine.flows_step` — what it does to the exceptions on their way.
-/

namespace Unwinding

open Context

variable {ν : Type}

/-! ## Joints -/

/-- What matters of a piece of code that waits. A region whose clauses are tried or that
is about to be left is in the same place as if it waited.

Joints are finer than bones: they name the region, so that it can be said at which
region a raise arrives. -/
inductive Joint where
  | guarding
  | unwinding (payload : Payload)
  | resuming (payload : Payload)
  | region (visit : Visit)
  | other

/-- What a joint says about unwindings alone. -/
def Joint.bone : Joint → Bone
  | .guarding => .guarding
  | .unwinding payload => .unwinding payload
  | .resuming payload => .resuming payload
  | .region _ => .other
  | .other => .other

/-- What waiting code has to do with regions and unwindings. -/
def Resumption.joint : Resumption ν → Joint
  | .guarding _ => .guarding
  | .unwinding payload => .unwinding payload
  | .resuming payload => .resuming payload
  | .body region => .region region.visit
  | .handler region => .region region.visit
  | _ => .other

/-- The region that a machine is busy with. -/
def Focus.joints : Focus ν → List Joint
  | .offer region _ => [.region region.visit]
  | .leave region _ => [.region region.visit]
  | _ => []

namespace Machine

/-- The joints of a machine, innermost first: the region that it is busy with, and then
the code that waits. -/
def joints (m : Machine ν) : List Joint :=
  m.focus.joints ++ m.control.map Resumption.joint

end Machine

/-! ## Shifts -/

namespace Deed

/-- A deed that neither sends a record on its way nor stops or catches one, and is about
no guard body. An explicit region is left by giving up its handle. -/
def IsMild (closing : Option Extent) : Deed → Prop
  | .raises _ _ _ => False
  | .catches _ _ => False
  | .stops => False
  | .forwards _ => False
  | .shields _ => False
  | .unshields _ => False
  | .leaves visit _ _ => closing = some (.region visit)
  | _ => True

/-- A deed that sends a record on its way. -/
def IsRaise : Deed → Prop
  | .raises _ _ _ => True
  | .forwards _ => True
  | _ => False

end Deed

/-- What a step may do to the code that waits, to what happens next and to the number of
unwindings, with the extent that it gives up and its deed.

This is to the code that waits what `Deed.Turns` is to the entries of the stacks. The
deed ties the two together. -/
inductive Shift (closing : Option Extent) :
    Deed → List Joint → Course → Nat → List Joint → Course → Nat → Prop
  | runs {deed : Deed} {joints : List Joint} {active : Nat}
    (isMild : deed.IsMild closing) :
      Shift closing deed joints .runs active joints .runs active
  /-- The code that then runs begins a block, or waits for one. -/
  | waits {deed : Deed} {before after : List Joint} {course : Course}
      {active left : Nat}
      (h : Shift closing deed before course active after .runs left) :
      Shift closing deed before course active (.other :: after) .runs left
  /-- The code that then runs comes to the end of a statement. -/
  | pauses {deed : Deed} {before after : List Joint} {course : Course}
      {active left : Nat}
      (h : Shift closing deed before course active after .runs left) :
      Shift closing deed before course active after .drops left
  | pops {deed : Deed} {joints : List Joint} {active : Nat}
      (isMild : deed.IsMild closing) :
      Shift closing deed (.other :: joints) .runs active joints .runs active
  | goesOn {joints : List Joint} {active : Nat} :
      Shift closing .rests (.other :: joints) .drops active (.other :: joints)
        .runs active
  | ends {joints : List Joint} {active : Nat} :
      Shift closing .rests (.other :: joints) .drops active joints .runs active
  | drops {deed : Deed} {joints : List Joint} {active : Nat}
      (isMild : deed.IsMild closing) :
      Shift closing deed joints .drops active joints .drops active
  | enters {joints : List Joint} {visit : Visit} {active : Nat}
      (isProtected : visit.explicit = false) :
      Shift closing (.enters visit) joints .runs active (.region visit :: joints)
        .runs active
  | leaves {joints : List Joint} {visit : Visit} {fate : Fate} {active : Nat} :
      Shift closing (.leaves visit false fate) (.region visit :: joints) .runs active
        joints .runs active
  | raises {deed : Deed} {joints : List Joint} {active : Nat} (isRaise : deed.IsRaise) :
      Shift closing deed joints .runs active joints (.unwinds .raise) (active + 1)
  | panics {deed : Deed} {joints : List Joint} {payload : Payload} {active : Nat}
      (isMild : deed.IsMild closing) (isPanic : payload ≠ .raise) :
      Shift closing deed joints .runs active joints (.unwinds payload) (active + 1)
  | passes {joints : List Joint} {payload : Payload} {active : Nat} :
      Shift closing .rests (.other :: joints) (.unwinds payload) active
        joints (.unwinds payload) active
  | passesRegion {joints : List Joint} {visit : Visit} {payload : Payload}
      {active : Nat} :
      Shift closing (.leaves visit true .nothing) (.region visit :: joints)
        (.unwinds payload) active joints (.unwinds payload) active
  | overtakes {joints : List Joint} {other payload : Payload} {active : Nat} :
      Shift closing .rests (.resuming other :: joints) (.unwinds payload) active
        joints (.unwinds payload) active
  /-- An unwinding is held up by a handle that it drops. -/
  | holds {joints : List Joint} {payload : Payload} {active : Nat} :
      Shift closing .rests (.other :: joints) (.unwinds payload) active
        (.unwinding payload :: .other :: joints) .drops active
  | releases {joints : List Joint} {payload : Payload} {course : Course} {active : Nat}
      (isHeld : course = .runs ∨ course = .drops) :
      Shift closing .rests (.unwinding payload :: joints) course active
        joints (.unwinds payload) active
  | resumes {joints : List Joint} {payload : Payload} {active : Nat} :
      Shift closing .rests (.resuming payload :: joints) .runs active
        joints (.unwinds payload) (active + 1)
  | catches {joints : List Joint} {visit : Visit} {exception : Exception}
      {active : Nat} :
      Shift closing (.catches visit exception) (.region visit :: joints)
        (.unwinds .raise) active (.region visit :: joints) .runs (active - 1)
  /-- Foreign code stops a raise, for good or for a while. -/
  | stopsRaise {joints : List Joint} {active : Nat} :
      Shift closing .stops (.other :: joints) (.unwinds .raise) active joints .runs
        (active - 1)
  | defersRaise {joints : List Joint} {active : Nat} :
      Shift closing .stops (.other :: joints) (.unwinds .raise) active
        (.resuming .raise :: joints) .runs (active - 1)
  | stopsPanic {joints : List Joint} {payload : Payload} {active : Nat}
      (isPanic : payload ≠ .raise) :
      Shift closing .rests (.other :: joints) (.unwinds payload) active
        joints .runs (active - 1)
  | defersPanic {joints : List Joint} {payload : Payload} {active : Nat}
      (isPanic : payload ≠ .raise) :
      Shift closing .rests (.other :: joints) (.unwinds payload) active
        (.resuming payload :: joints) .runs (active - 1)
  | shields {joints : List Joint} {mark active : Nat} :
      Shift closing (.shields mark) joints .drops active (.guarding :: joints)
        .runs active
  | unshields {joints : List Joint} {mark active : Nat} :
      Shift closing (.unshields mark) (.guarding :: joints) .runs active joints .drops
        active
  | halts {deed : Deed} {joints : List Joint} {course : Course} {active : Nat}
      (isMild : deed.IsMild closing) :
      Shift closing deed joints course active joints .stops active
  | loses {deed : Deed} {top : Joint} {joints : List Joint} {course : Course}
      {active : Nat}
      (isMild : deed.IsMild closing)
      (isTop : top = .other ∨ ∃ payload, top = .unwinding payload) :
      Shift closing deed (top :: joints) course active joints .stops active

/-- Only a region that code waits in catches a raise. -/
theorem Shift.of_catches {closing : Option Extent} {deed : Deed} {visit : Visit}
    {exception : Exception} {before after : List Joint} {course next : Course}
    {active left : Nat} (h : Shift closing deed before course active after next left)
    (hDeed : deed = .catches visit exception) :
    course = .unwinds .raise ∧ ∃ below, before = .region visit :: below := by
  have excluded (hMild : deed.IsMild closing) {goal : Prop} : goal := by
    rw [hDeed] at hMild
    exact hMild.elim
  induction h with
  | waits _ ih => exact ih hDeed excluded
  | pauses _ ih => exact ih hDeed excluded
  | @catches joints other found =>
      cases hDeed
      exact ⟨rfl, joints, rfl⟩
  | runs isMild => exact excluded isMild
  | pops isMild => exact excluded isMild
  | drops isMild => exact excluded isMild
  | panics isMild isPanic => exact excluded isMild
  | halts isMild => exact excluded isMild
  | loses isMild isTop => exact excluded isMild
  | raises isRaise =>
      rw [hDeed] at isRaise
      exact isRaise.elim
  | _ => cases hDeed

/-- Guard bodies begin where handles are dropped. -/
theorem Shift.of_shields {closing : Option Extent} {deed : Deed} {mark : Nat}
    {before after : List Joint} {course next : Course} {active left : Nat}
    (h : Shift closing deed before course active after next left)
    (hDeed : deed = .shields mark) : course = .drops := by
  have excluded (hMild : deed.IsMild closing) {goal : Prop} : goal := by
    rw [hDeed] at hMild
    exact hMild.elim
  induction h with
  | waits _ ih => exact ih hDeed excluded
  | pauses _ ih => exact ih hDeed excluded
  | shields => rfl
  | runs isMild => exact excluded isMild
  | pops isMild => exact excluded isMild
  | drops isMild => exact excluded isMild
  | panics isMild isPanic => exact excluded isMild
  | halts isMild => exact excluded isMild
  | loses isMild isTop => exact excluded isMild
  | raises isRaise =>
      rw [hDeed] at isRaise
      exact isRaise.elim
  | _ => cases hDeed

namespace Machine

variable {m : Machine ν} {closing : Option Extent} {deed : Deed}

/-- The shift from a machine to the one after a step. -/
def Shifts (m after : Machine ν) : Prop :=
  Shift m.closing? m.deed m.joints m.focus.course m.unwindings
    after.joints after.focus.course after.unwindings

/-! ## Mild deeds -/

private theorem mild_answering {α : Type} {step : Step α} {deed : α → Deed}
    (hDeed : ∀ answer, (deed answer).IsMild closing) :
    (m.answering step deed).IsMild closing := by
  unfold answering
  split
  · trivial
  · split
    · exact hDeed _
    · trivial

/-- What closing the thread comes to: nothing, or the end of its context. -/
theorem closing_eq (m : Machine ν) : m.closing = .rests ∨ m.closing = .closes := by
  unfold closing
  split
  · exact .inl rfl
  · exact .inr rfl

private theorem mild_closing (m : Machine ν) : m.closing.IsMild closing := by
  obtain h | h := m.closing_eq <;> rw [h] <;> trivial

/-- What a statement does by itself is mild: it sends nothing on its way and stops
nothing, and a region that it leaves is the one that it gives up. -/
theorem mild_deedOf {stmt : Stmt ν} (hFocus : m.focus = .exec stmt) :
    (m.deedOf stmt).IsMild m.closing? := by
  unfold deedOf
  split
  · split <;> trivial
  · exact mild_answering fun _ => trivial
  · exact mild_answering fun _ => trivial
  · exact mild_answering fun _ => trivial
  · split
    · split
      · exact mild_answering fun _ => trivial
      · trivial
    · trivial
  · split
    · next hTake => simp only [closing?, hFocus, hTake, Deed.IsMild]
    · exact mild_closing m
    · trivial
  · split <;> trivial
  · trivial
  · trivial

/-! ## Statements and handles -/

/-- A step on the context that answers is followed through what comes next. -/
theorem shift_perform {α : Type} {step : Step α} {next : Machine ν → α → Machine ν}
    {joints : List Joint} {course : Course} {active : Nat}
    (hGoesOn : (m.perform step next).poisoned = false)
    (hNext : ∀ context answer after, m.context = some context →
      step context = .ok answer after →
      (next (m.store after) answer).poisoned = false →
        Shift closing deed joints course active (next (m.store after) answer).joints
          (next (m.store after) answer).focus.course
            (next (m.store after) answer).unwindings) :
    Shift closing deed joints course active (m.perform step next).joints
      (m.perform step next).focus.course (m.perform step next).unwindings := by
  obtain ⟨context, answer, after, hContext, hOk, hStep⟩ := perform_goesOn hGoesOn
  rw [hStep] at hGoesOn ⊢
  exact hNext context answer after hContext hOk hGoesOn

private theorem joint_own (name : String) (handle : Handle ν) :
    (m.own name handle).control.map Resumption.joint = m.control.map Resumption.joint :=
  map_own (fun _ _ _ _ _ => rfl) m name handle

private theorem shift_own {name : String} {handle : Handle ν} {stmt : Stmt ν}
    {joints : List Joint} {active : Nat}
    (h : Shift closing deed joints .runs active (m.control.map Resumption.joint) .runs
      m.unwindings) :
    Shift closing deed joints .runs active
      ((m.own name handle).goto (.exec stmt)).joints .runs
      ((m.own name handle).goto (.exec stmt)).unwindings := by
  change Shift _ _ _ _ _ ((m.own name handle).control.map Resumption.joint) _
    (m.own name handle).unwindings
  rw [joint_own, unwindings_own]
  exact h

private theorem shift_acquire {name : String} {opening : Opening} {times : Nat}
    (isMild : deed.IsMild closing)
    (hGoesOn :
      (m.acquire name opening fun m =>
      m.goto (.exec (.acquire name opening times))).poisoned = false) :
    Shift closing deed (m.control.map Resumption.joint) .runs m.unwindings
      (m.acquire name opening fun m =>
        m.goto (.exec (.acquire name opening times))).joints
      (m.acquire name opening fun m =>
        m.goto (.exec (.acquire name opening times))).focus.course
      (m.acquire name opening
        fun m => m.goto (.exec (.acquire name opening times))).unwindings := by
  unfold acquire at hGoesOn ⊢
  cases opening with
  | thread limits =>
      have hControl := control_openThread m limits
      have hUnwindings := unwindings_openThread m limits
      cases hOpen : m.openThread limits with
      | mk outcome opened =>
          rw [hOpen] at hControl hUnwindings
          dsimp only at hUnwindings
          have hOpened :
            Shift closing deed (m.control.map Resumption.joint) .runs m.unwindings
              (opened.control.map Resumption.joint) .runs opened.unwindings := by
            rw [hControl, hUnwindings]
            exact .runs isMild
          simp only [hOpen]
          cases outcome with
          | opened => exact shift_own hOpened
          | refused error => exact hOpened
          | overflowed =>
              have isPanic : overflow ≠ .raise := by simp [overflow]
              change Shift _ _ _ _ _ (opened.control.map Resumption.joint)
                (.unwinds overflow) (opened.unwindings + 1)
              rw [hControl, hUnwindings]
              exact .panics isMild isPanic
  | region site =>
      exact shift_perform hGoesOn fun _ _ _ _ _ _ => shift_own (.runs isMild)
  | call site => exact shift_perform hGoesOn fun _ _ _ _ _ _ => shift_own (.runs isMild)
  | guards site => exact shift_own (.runs isMild)

private theorem shift_registerGuard {name : String} {flavor : Flavor}
    {body : List (Stmt ν)} (isMild : deed.IsMild closing)
    (hGoesOn : (m.registerGuard name flavor body).poisoned = false) :
    Shift closing deed (m.control.map Resumption.joint) .runs m.unwindings
      (m.registerGuard name flavor body).joints
      (m.registerGuard name flavor body).focus.course
        (m.registerGuard name flavor body).unwindings := by
  have put (handle : Handle ν) :
    Shift closing deed (m.control.map Resumption.joint) .runs m.unwindings
      ((Handle.put name handle m.control).map Resumption.joint) .runs m.unwindings := by
    rw [map_put fun _ _ _ _ _ => rfl]
    exact .runs isMild
  unfold registerGuard at hGoesOn ⊢
  split
  · next scope hFind =>
      rw [hFind] at hGoesOn
      dsimp only at hGoesOn ⊢
      split
      · exact put _
      · next hMark =>
          rw [hMark] at hGoesOn
          exact shift_perform hGoesOn fun _ _ _ _ _ _ => put _
  · exact .runs isMild

private theorem shift_release {name : String} {how : Closing}
    (hClear : m.poisoned = false) (isMild : deed.IsMild closing)
    (hGoesOn : (m.release name how).poisoned = false) :
    Shift closing deed (m.control.map Resumption.joint) .runs m.unwindings
      (m.release name how).joints
      (m.release name how).focus.course (m.release name how).unwindings := by
  unfold release at hGoesOn ⊢
  cases hTake : Handle.take? name m.control with
  | none => exact .runs isMild
  | some taken =>
      obtain ⟨handle, control⟩ := taken
      have hKept :
        Shift closing deed (m.control.map Resumption.joint) .runs m.unwindings
          (control.map Resumption.joint) .runs m.unwindings := by
        rw [map_take? (fun _ _ _ _ _ => rfl) hTake]
        exact .runs isMild
      have dropping :
        Shift closing deed (m.control.map Resumption.joint) .runs m.unwindings
          ((({ m with control } : Machine ν).push .releasing).goto
            (.drop handle)).joints .drops
          m.unwindings := hKept.waits.pauses
      rw [hTake] at hGoesOn
      cases how with
      | drop => cases handle <;> exact dropping
      | forget => cases handle <;> exact hKept
      | leave =>
          cases handle with
          | region visit inUnwinding =>
              exact shift_perform hGoesOn fun _ _ _ _ _ _ => hKept
          | _ => exact dropping
      | shutdown =>
          cases handle with
          | thread =>
              obtain ⟨-, hControl, hUnwindings, -⟩ :=
                closeThread_clear (m := { m with control }) hClear
              change Shift _ _ _ _ _
                (({ m with control } : Machine ν).closeThread.2.control.map
                  Resumption.joint) .runs
                ({ m with control } : Machine ν).closeThread.2.unwindings
              rw [hControl, hUnwindings]
              exact hKept
          | _ => exact dropping

private theorem shift_drop {handle : Handle ν} (hClear : m.poisoned = false)
    (hFocus : m.focus = .drop handle) (hGoesOn : (m.drop handle).poisoned = false) :
    Shift m.closing? m.deed (m.control.map Resumption.joint) .drops m.unwindings
      (m.drop handle).joints
      (m.drop handle).focus.course (m.drop handle).unwindings := by
  unfold drop at hGoesOn ⊢
  simp only [Machine.deed, closing?, hFocus]
  cases handle with
  | thread =>
      obtain ⟨-, hControl, hUnwindings, -⟩ := dropThread_clear hClear
      change Shift _ _ _ _ _ (m.dropThread.control.map Resumption.joint) .drops
        m.dropThread.unwindings
      rw [hControl, hUnwindings]
      exact .drops (mild_closing m)
  | region visit inUnwinding =>
      simp only [hClear, Bool.false_eq_true, if_false] at hGoesOn ⊢
      split
      · next hLeaves =>
          rw [if_pos hLeaves] at hGoesOn
          exact shift_perform hGoesOn fun _ _ _ _ _ _ => .drops rfl
      · next hNot =>
          rw [if_neg hNot] at hGoesOn
          exact shift_perform hGoesOn fun _ _ _ _ _ _ => .drops trivial
  | call entry inUnwinding =>
      simp only [hClear, Bool.false_eq_true, if_false] at hGoesOn ⊢
      exact shift_perform hGoesOn fun _ _ _ _ _ _ => .drops trivial
  | guards scope =>
      dsimp only
      cases scope.mark with
      | none => exact .drops trivial
      | some mark =>
          simp only [hClear, Bool.false_eq_true, if_false]
          exact .drops trivial

private theorem shift_leaveScope {scope : Leaving ν}
    (hFocus : m.focus = .leaveScope scope)
    (hGoesOn : (m.leaveScope scope).poisoned = false) :
    Shift m.closing? m.deed (m.control.map Resumption.joint) .drops m.unwindings
      (m.leaveScope scope).joints
      (m.leaveScope scope).focus.course (m.leaveScope scope).unwindings := by
  unfold leaveScope at hGoesOn ⊢
  simp only [Machine.deed, hFocus]
  cases hBodies : scope.bodies with
  | nil =>
      rw [hBodies] at hGoesOn
      exact shift_perform hGoesOn fun _ _ _ _ _ _ => .drops trivial
  | cons registered bodies =>
      obtain ⟨flavor, body⟩ := registered
      rw [hBodies] at hGoesOn
      dsimp only at hGoesOn ⊢
      split
      · next hApplies =>
          rw [if_pos hApplies] at hGoesOn
          exact shift_perform hGoesOn fun _ _ _ _ _ _ => .pauses (.waits .shields)
      · exact .drops trivial

/-! ## Raises and regions -/

private theorem shift_raise {ref : KindRef} {site : Site} {message : List (Piece ν)}
    (isMild : deed.IsMild closing)
    (hGoesOn : (m.raise ref site message).poisoned = false) :
    Shift closing deed (m.control.map Resumption.joint) .runs m.unwindings
      (m.raise ref site message).joints
      (m.raise ref site message).focus.course (m.raise ref site message).unwindings :=
        by
  unfold raise at hGoesOn ⊢
  cases hKind : ref.resolve? m.registry.slots with
  | none =>
      rw [hKind] at hGoesOn
      cases hGoesOn.symm.trans (poisoned_terminate _ _)
  | some kind =>
      rw [hKind] at hGoesOn
      exact shift_perform hGoesOn fun _ _ _ _ _ _ => .runs isMild

private theorem shift_finishRaise {raising : Raising} (isRaise : deed.IsRaise)
    (hGoesOn : (m.finishRaise raising).poisoned = false) :
    Shift closing deed (m.control.map Resumption.joint) .runs m.unwindings
      (m.finishRaise raising).joints
      (m.finishRaise raising).focus.course (m.finishRaise raising).unwindings := by
  unfold finishRaise at hGoesOn ⊢
  refine shift_perform hGoesOn fun _ uncaught _ _ _ hOn => ?_
  cases uncaught with
  | none => exact .raises isRaise
  | some exception => cases hOn.symm.trans (poisoned_terminate _ _)

private theorem shift_write {raising : Raising} {pieces : List (Piece ν)}
    (hFocus : m.focus = .write raising pieces)
    (hGoesOn : (m.write raising pieces).poisoned = false) :
    Shift m.closing? m.deed (m.control.map Resumption.joint) .runs m.unwindings
      (m.write raising pieces).joints
      (m.write raising pieces).focus.course (m.write raising pieces).unwindings := by
  simp only [Machine.deed, hFocus]
  cases pieces with
  | nil => exact shift_finishRaise trivial hGoesOn
  | cons piece rest =>
      cases piece with
      | run body => exact .pauses (.waits (.waits (.runs trivial)))
      | text text =>
          cases hWrite : raising.buffer.write text with
          | mk buffer fits =>
              simp only [write, hWrite, Raising.finished?] at hGoesOn ⊢
              cases fits with
              | true => exact .runs trivial
              | false => exact shift_finishRaise trivial hGoesOn

private theorem shift_forward {exception : Exception} (isRaise : deed.IsRaise)
    (hGoesOn : (m.forward exception).poisoned = false) :
    Shift closing deed (m.control.map Resumption.joint) .runs m.unwindings
      (m.forward exception).joints
      (m.forward exception).focus.course (m.forward exception).unwindings := by
  unfold forward at hGoesOn ⊢
  refine shift_perform hGoesOn fun _ uncaught _ _ _ hOn => ?_
  cases uncaught with
  | none => exact .raises isRaise
  | some exception => cases hOn.symm.trans (poisoned_terminate _ _)

private theorem shift_protect {levels : Nat} {site : Site} {mode : Mode}
    {clauses : List (Clause ν)} {body : List (Stmt ν)}
    (hFocus : m.focus = .exec (.protect levels site mode clauses body))
    (hGoesOn : (m.protect levels site mode clauses body).poisoned = false) :
    Shift m.closing? m.deed (m.control.map Resumption.joint) .runs m.unwindings
      (m.protect levels site mode clauses body).joints
      (m.protect levels site mode clauses body).focus.course
        (m.protect levels site mode clauses body).unwindings := by
  unfold protect at hGoesOn ⊢
  refine shift_perform hGoesOn fun context visit after hContext hOk _ => ?_
  have hDeed : m.deed = .enters visit := by
    simp only [Machine.deed, hFocus, deedOf, answering_ok (m := m) hContext hOk]
  have isProtected : visit.explicit = false := by rw [(effect_enter.of_ok hOk).1]
  rw [hDeed]
  cases levels with
  | zero => exact .pauses (.waits (.enters isProtected))
  | succ inner =>
      cases inner with
      | zero => exact .pauses (.waits (.enters isProtected))
      | succ inner => exact .enters isProtected

private theorem shift_offer {region : Protected ν} {exception : Exception}
    (hFocus : m.focus = .offer region exception)
    (hGoesOn : (m.offer region exception).poisoned = false) :
    Shift m.closing? m.deed (.region region.visit :: m.control.map Resumption.joint)
      .runs m.unwindings (m.offer region exception).joints
      (m.offer region exception).focus.course (m.offer region exception).unwindings :=
        by
  unfold offer at hGoesOn ⊢
  dsimp only at hGoesOn
  simp only [Machine.deed, hFocus]
  generalize List.find? _ region.clauses.zipIdx = found at hGoesOn ⊢
  cases found with
  | none => exact .runs trivial
  | some found =>
      exact shift_perform hGoesOn fun _ _ _ _ _ _ => .pauses (.waits (.runs trivial))

private theorem shift_leave {region : Protected ν}
    {outcome : Except Exception (Option ν)} (hFocus : m.focus = .leave region outcome)
    (hGoesOn : (m.leave region outcome).poisoned = false) :
    Shift m.closing? m.deed (.region region.visit :: m.control.map Resumption.joint)
      .runs m.unwindings (m.leave region outcome).joints
      (m.leave region outcome).focus.course (m.leave region outcome).unwindings := by
  unfold leave at hGoesOn ⊢
  simp only [Machine.deed, hFocus]
  refine shift_perform hGoesOn fun _ _ _ _ _ _ => ?_
  cases outcome <;> cases region.mode <;> exact .leaves

private theorem shift_passThrough {popped : Machine ν} {region : Protected ν}
    {payload : Payload} (hClear : popped.poisoned = false)
    (hGoesOn : (popped.passThrough region payload).poisoned = false) :
    Shift closing (.leaves region.visit true .nothing)
      (.region region.visit :: popped.control.map Resumption.joint)
      (.unwinds payload) popped.unwindings (popped.passThrough region payload).joints
      (popped.passThrough region payload).focus.course
      (popped.passThrough region payload).unwindings := by
  unfold passThrough at hGoesOn ⊢
  simp only [hClear, Bool.false_eq_true, if_false] at hGoesOn ⊢
  exact shift_perform hGoesOn fun _ _ _ _ _ _ => .passesRegion

/-! ## Code that runs and code that waits -/

private theorem shift_exec {stmt : Stmt ν} (hClear : m.poisoned = false)
    (hFocus : m.focus = .exec stmt) (hGoesOn : (m.exec stmt).poisoned = false) :
    Shift m.closing? m.deed (m.control.map Resumption.joint) .runs m.unwindings
      (m.exec stmt).joints
      (m.exec stmt).focus.course (m.exec stmt).unwindings := by
  have isMild : m.deed.IsMild m.closing? := by
    rw [show m.deed = m.deedOf stmt by simp only [Machine.deed, hFocus]]
    exact mild_deedOf hFocus
  cases stmt with
  | raise kind site message => exact shift_raise isMild hGoesOn
  | panic text =>
      have isPanic : Payload.panic text ≠ .raise := by simp
      exact .panics isMild isPanic
  | protect levels site mode clauses body => exact shift_protect hFocus hGoesOn
  | guard scope flavor body => exact shift_registerGuard isMild hGoesOn
  | release name how => exact shift_release hClear isMild hGoesOn
  | acquire name opening times =>
      cases times with
      | zero => exact .runs isMild
      | succ times => exact shift_acquire isMild hGoesOn
  | block body => exact .pauses (.waits (.runs isMild))
  | loop times body =>
      cases times with
      | zero => exact .runs isMild
      | succ times => exact .pauses (.waits (.waits (.runs isMild)))
  | attempt body resume => exact .pauses (.waits (.waits (.runs isMild)))
  | rethrow name =>
      simp only [exec]
      split <;> exact .runs isMild
  | annotate text =>
      simp only [exec]
      split <;> exact .runs isMild
  | inspect name =>
      simp only [exec]
      split <;> exact .runs isMild
  | configure config =>
      simp only [exec]
      split <;> exact .runs isMild
  | declare entry =>
      simp only [exec]
      split
      · exact .runs isMild
      · next kind registry notices _ =>
          have hControl := control_foldl_note notices ({ m with registry } : Machine ν)
          obtain ⟨-, -, hUnwindings⟩ :=
            foldl_note_same notices ({ m with registry } : Machine ν)
          change Shift _ _ _ _ _
            ((notices.foldl note { m with registry }).control.map Resumption.joint)
              .runs
            (notices.foldl note { m with registry }).unwindings
          rw [hControl, hUnwindings]
          exact .runs isMild
  | _ => exact .runs isMild

private theorem shift_proceed :
    Shift closing .rests (m.control.map Resumption.joint) .drops m.unwindings
      m.proceed.joints
      m.proceed.focus.course m.proceed.unwindings := by
  unfold proceed
  split
  · next hControl =>
      rw [hControl]
      exact .goesOn
  · next hControl =>
      rw [hControl]
      exact .drops trivial
  · next hControl =>
      rw [hControl]
      exact .ends
  · next hControl =>
      rw [hControl]
      exact .ends
  · next hControl =>
      rw [hControl]
      exact .releases (.inr rfl)
  · exact .halts trivial

private theorem shift_complete {value : Option (Option ν)} :
    Shift closing .rests (m.control.map Resumption.joint) .runs m.unwindings
      (m.complete value).joints
      (m.complete value).focus.course (m.complete value).unwindings := by
  unfold complete
  split
  · next hControl =>
      rw [hControl]
      exact .pauses (.runs trivial)
  · exact .pauses (.runs trivial)

private theorem shift_deliver {value : Option ν} (hClear : m.poisoned = false)
    (hFocus : m.focus = .deliver value) (hGoesOn : (m.deliver value).poisoned = false) :
    Shift m.closing? m.deed (m.control.map Resumption.joint) .runs m.unwindings
      (m.deliver value).joints
      (m.deliver value).focus.course (m.deliver value).unwindings := by
  unfold deliver at hGoesOn ⊢
  cases hControl : m.control with
  | nil =>
      rw [show m.deed = .rests by simp only [Machine.deed, hFocus, hControl]]
      change Shift _ _ _ _ _ (m.control.map Resumption.joint) .stops _
      rw [hControl]
      exact .halts trivial
  | cons waiting below =>
      rw [hControl] at hGoesOn
      cases waiting with
      | guarding scope =>
          rw [show m.deed = .unshields scope.mark by
            simp only [Machine.deed, hFocus, hControl]]
          exact shift_perform hGoesOn fun _ _ _ _ _ _ => .unshields
      | body region =>
          have isMild : m.deed.IsMild m.closing? := by
            simp only [Machine.deed, hFocus, hControl]
            refine mild_answering fun escape => ?_
            cases escape <;> trivial
          refine shift_perform hGoesOn fun _ escape _ _ _ _ => ?_
          cases escape <;> exact .runs isMild
      | thread auto =>
          cases auto with
          | false =>
              rw [show m.deed = .rests by simp only [Machine.deed, hFocus, hControl]]
              exact .loses trivial (.inl rfl)
          | true =>
              rw [show m.deed = m.closing by simp only [Machine.deed, hFocus, hControl]]
              obtain ⟨-, hPopped, hUnwindings, -⟩ :=
                closeThread_clear (m := { m with control := below }) hClear
              change Shift _ _ _ _ _
                (({ m with control := below } : Machine ν).closeThread.2.control.map
                  Resumption.joint)
                .stops ({ m with control := below } :
                  Machine ν).closeThread.2.unwindings
              rw [hPopped, hUnwindings]
              exact .loses (mild_closing m) (.inl rfl)
      | loop times body =>
          rw [show m.deed = .rests by simp only [Machine.deed, hFocus, hControl]]
          cases times with
          | zero => exact .pops trivial
          | succ times => exact .pauses (.waits (.waits (.pops trivial)))
      | block word rest handles old =>
          rw [show m.deed = .rests by simp only [Machine.deed, hFocus, hControl]]
          change Shift _ _ _ _ _ (m.control.map Resumption.joint) .runs _
          rw [hControl]
          exact .runs trivial
      | handler region =>
          rw [show m.deed = .rests by simp only [Machine.deed, hFocus, hControl]]
          exact .runs trivial
      | unwinding payload =>
          rw [show m.deed = .rests by simp only [Machine.deed, hFocus, hControl]]
          exact .releases (.inl rfl)
      | resuming payload =>
          rw [show m.deed = .rests by simp only [Machine.deed, hFocus, hControl]]
          exact .resumes
      | _ =>
          rw [show m.deed = .rests by simp only [Machine.deed, hFocus, hControl]]
          exact .pops trivial

private theorem shift_propagate {payload : Payload} (hClear : m.poisoned = false)
    (hFocus : m.focus = .unwind payload)
    (hGoesOn : (m.propagate payload).poisoned = false) :
    Shift m.closing? m.deed (m.control.map Resumption.joint) (.unwinds payload)
      m.unwindings (m.propagate payload).joints
      (m.propagate payload).focus.course (m.propagate payload).unwindings := by
  unfold propagate at hGoesOn ⊢
  cases hControl : m.control with
  | nil =>
      simp only [Machine.deed, hFocus, hControl]
      change Shift _ _ _ _ _ (m.control.map Resumption.joint) .stops _
      rw [hControl]
      exact .halts trivial
  | cons waiting below =>
      rw [hControl] at hGoesOn
      have hPopped : ({ m with control := below } : Machine ν).poisoned = false :=
        hClear
      cases waiting with
      | block word rest handles value =>
          simp only [Machine.deed, hFocus, hControl]
          cases handles with
          | nil => exact .passes
          | cons handle handles => exact .holds
      | body region =>
          cases payload with
          | raise =>
              dsimp only at hGoesOn ⊢
              obtain ⟨context, exception, after, hContext, hOk, hNext⟩ :=
                perform_goesOn hGoesOn
              have hDeed : m.deed = .catches region.visit exception := by
                simp only [Machine.deed, hFocus, hControl,
                  answering_ok (m := m) hContext hOk]
              rw [hDeed, hNext]
              exact .catches
          | panic text =>
              rw [show m.deed = .leaves region.visit true .nothing by
                simp only [Machine.deed, hFocus, hControl]]
              exact shift_passThrough hPopped hGoesOn
          | termination termination =>
              rw [show m.deed = .leaves region.visit true .nothing by
                simp only [Machine.deed, hFocus, hControl]]
              exact shift_passThrough hPopped hGoesOn
      | handler region =>
          rw [show m.deed = .leaves region.visit true .nothing by
            simp only [Machine.deed, hFocus, hControl]]
          exact shift_passThrough hPopped hGoesOn
      | guarding scope =>
          cases hGoesOn.symm.trans (poisoned_terminate _ _)
      | releasing =>
          simp only [Machine.deed, hFocus, hControl]
          exact .passes
      | unwinding other =>
          simp only [Machine.deed, hFocus, hControl]
          exact .loses trivial (.inr ⟨other, rfl⟩)
      | attempt resume =>
          simp only [Machine.deed, hFocus, hControl]
          have isPanic (text : Option String) : Payload.panic text ≠ .raise := by simp
          have isTermination (termination : Termination) :
              Payload.termination termination ≠ .raise := by simp
          cases resume with
          | none =>
              cases payload with
              | raise => exact .stopsRaise
              | panic text => exact .stopsPanic (isPanic text)
              | termination termination => exact .stopsPanic (isTermination termination)
          | some between =>
              cases payload with
              | raise => exact .pauses (.waits .defersRaise)
              | panic text => exact .pauses (.waits (.defersPanic (isPanic text)))
              | termination termination =>
                  exact .pauses (.waits (.defersPanic (isTermination termination)))
      | resuming other =>
          simp only [Machine.deed, hFocus, hControl]
          exact .overtakes
      | loop times body =>
          simp only [Machine.deed, hFocus, hControl]
          exact .passes
      | message raising rest =>
          simp only [Machine.deed, hFocus, hControl]
          exact .passes
      | thread auto =>
          cases auto with
          | false =>
              rw [show m.deed = .rests by simp only [Machine.deed, hFocus, hControl]]
              exact .loses trivial (.inl rfl)
          | true =>
              rw [show m.deed = m.closing by simp only [Machine.deed, hFocus, hControl]]
              obtain ⟨-, hWaits, hUnwindings, -⟩ := dropThread_clear hPopped
              change Shift _ _ _ _ _
                (({ m with control := below } : Machine ν).dropThread.control.map
                  Resumption.joint)
                .stops ({ m with control := below } : Machine ν).dropThread.unwindings
              rw [hWaits, hUnwindings]
              exact .loses (mild_closing m) (.inl rfl)

/-! ## One step -/

/-- What a step does to the code that waits, whatever the run. -/
theorem shift_step (hClear : m.poisoned = false) (hGoesOn : m.step.poisoned = false) :
    m.Shifts m.step := by
  unfold Shifts
  unfold step at hGoesOn ⊢
  unfold joints
  cases hFocus : m.focus with
  | next =>
      rw [show m.deed = .rests by simp only [Machine.deed, hFocus]]
      exact shift_proceed
  | exec stmt =>
      rw [hFocus] at hGoesOn
      exact shift_exec hClear hFocus hGoesOn
  | complete value =>
      rw [show m.deed = .rests by simp only [Machine.deed, hFocus]]
      exact shift_complete
  | deliver value =>
      rw [hFocus] at hGoesOn
      exact shift_deliver hClear hFocus hGoesOn
  | unwind payload =>
      rw [hFocus] at hGoesOn
      exact shift_propagate hClear hFocus hGoesOn
  | offer region exception =>
      rw [hFocus] at hGoesOn
      exact shift_offer hFocus hGoesOn
  | leave region outcome =>
      rw [hFocus] at hGoesOn
      exact shift_leave hFocus hGoesOn
  | forward exception =>
      rw [hFocus] at hGoesOn
      have isRaise : m.deed.IsRaise := by simp only [Machine.deed, hFocus]; trivial
      exact shift_forward isRaise hGoesOn
  | drop handle =>
      rw [hFocus] at hGoesOn
      exact shift_drop hClear hFocus hGoesOn
  | leaveScope scope =>
      rw [hFocus] at hGoesOn
      exact shift_leaveScope hFocus hGoesOn
  | write raising pieces =>
      rw [hFocus] at hGoesOn
      exact shift_write hFocus hGoesOn
  | stopped how =>
      rw [show m.deed = .rests by simp only [Machine.deed, hFocus]]
      dsimp only
      rw [hFocus]
      exact .halts trivial

end Machine

/-! ## What a deed does to the exceptions on their way -/

namespace Deed

/-- Whether a record is in flight after a deed. -/
def flies (flying : Bool) (parked : List Bool) : Deed → Bool
  | .raises _ _ _ => true
  | .forwards _ => true
  | .unshields _ => parked.headD false
  | .leaves _ unwinding _ => flying && unwinding
  | .catches _ _ => false
  | .reports _ _ => false
  | .abandons _ => false
  | .shields _ => false
  | .stops => false
  | .opens => false
  | .closes => false
  | _ => flying

/-- Which guard bodies park a record after a deed, the innermost body first. -/
def parks (flying : Bool) (parked : List Bool) : Deed → List Bool
  | .shields _ => flying :: parked
  | .unshields _ => parked.tail
  | _ => parked

end Deed

namespace Flow

variable {bones : List Bone} {course : Course} {unwindings : Nat} {flying : Bool}
    {parked : List Bool} {payload : Payload}

/-- A record that was in flight is not any more. -/
theorem fade (h : Flow False bones course unwindings flying parked) :
    Flow False bones course unwindings false parked :=
  { h with
    carries := fun hFlying => by cases hFlying
    pending := False.elim }

/-- An unwinding ends here. -/
theorem halt
    (h : Flow False (.other :: bones) (.unwinds payload) unwindings flying parked) :
    Flow False bones .runs (unwindings - 1) false parked where
  active := by
    have := h.active
    simp only [Course.unwinding, Bone.held_other] at *
    omega
  carries := fun hFlying => by cases hFlying
  shields := h.shields
  pending := False.elim

/-- An unwinding that was stopped waits for other code. -/
theorem defer (h : Flow False bones .runs unwindings false parked) :
    Flow False (.resuming payload :: bones) .runs unwindings false parked where
  active := h.active
  carries := fun hFlying => by cases hFlying
  shields := h.shields
  pending := False.elim

/-- A thread that stops leaves code behind. -/
theorem shed (h : Flow False (.other :: bones) .stops unwindings flying parked) :
    Flow False bones .stops unwindings flying parked :=
  { h with pending := False.elim }

/-- A panic goes without a record in flight. -/
theorem landed_of_panic (hPanic : payload ≠ .raise)
    (h : Flow False bones (.unwinds payload) unwindings flying parked) :
    flying = false := by
  cases flying with
  | false => rfl
  | true => exact absurd (h.carries rfl) hPanic

/-- A mild deed sends nothing on its way. -/
theorem mild {closing : Option Extent} {deed : Deed} (hMild : deed.IsMild closing)
    (h : Flow False bones course unwindings flying parked) :
    Flow False bones course unwindings (deed.flies flying parked)
      (deed.parks flying parked) := by
  cases deed with
  | leaves visit unwinding fate =>
      cases unwinding with
      | false =>
          rw [Deed.flies, Bool.and_false]
          exact h.fade
      | true =>
          rw [Deed.flies, Bool.and_true]
          exact h
  | raises kind message origin => exact hMild.elim
  | forwards exception => exact hMild.elim
  | shields mark => exact hMild.elim
  | unshields mark => exact hMild.elim
  | catches visit exception => exact hMild.elim
  | reports visit exception => exact h.fade
  | abandons visit => exact h.fade
  | stops => exact hMild.elim
  | opens => exact h.fade
  | closes => exact h.fade
  | _ => exact h

end Flow

/-- What a shift does to the exceptions on their way. -/
theorem Shift.flow {closing : Option Extent} {deed : Deed} {before after : List Joint}
    {course next : Course} {active left : Nat} {flying : Bool} {parked : List Bool}
    (hShift : Shift closing deed before course active after next left)
    (h : Flow False (before.map Joint.bone) course active flying parked) :
    Flow False (after.map Joint.bone) next left (deed.flies flying parked)
      (deed.parks flying parked) := by
  induction hShift with
  | runs isMild => exact h.mild isMild
  | waits _ ih => exact (ih h).push
  | pauses _ ih => exact (ih h).run
  | pops isMild => exact (h.mild isMild).pop
  | goesOn => exact h.resume
  | ends => exact h.resume.pop
  | drops isMild => exact h.mild isMild
  | enters isProtected => exact h.push
  | leaves =>
      rw [Deed.flies, Bool.and_false]
      exact h.pop.fade
  | @raises deed joints active isRaise =>
      cases deed with
      | raises kind message origin => exact h.raise
      | forwards exception => exact h.raise
      | _ => exact isRaise.elim
  | panics isMild isPanic => exact (h.mild isMild).panic isPanic
  | passes => exact h.pass
  | passesRegion =>
      rw [Deed.flies, Bool.and_true]
      exact h.pass
  | overtakes => exact h.overtake
  | holds => exact h.hold
  | releases isHeld => exact h.release isHeld
  | resumes => exact h.again
  | catches => exact h.halt.push
  | stopsRaise => exact h.halt
  | defersRaise => exact h.halt.defer
  | stopsPanic isPanic =>
      obtain rfl := h.landed_of_panic isPanic
      exact h.halt
  | defersPanic isPanic =>
      obtain rfl := h.landed_of_panic isPanic
      exact h.halt.defer
  | shields => exact h.shield
  | unshields =>
      cases parked with
      | nil => cases h.shields
      | cons parks parked => exact h.unshield
  | halts isMild => exact (h.mild isMild).stop
  | loses isMild isTop =>
      obtain rfl | ⟨payload, rfl⟩ := isTop
      · exact (h.mild isMild).stop.shed
      · exact (h.mild isMild).lose

namespace Machine

variable {m : Machine ν} {flying : Bool} {parked : List Bool}

/-- The exceptions on their way fit the code that waits, and each unwinding that is
under way or held up is counted. -/
def Flows (m : Machine ν) (flying : Bool) (parked : List Bool) : Prop :=
  Flow False (m.joints.map Joint.bone) m.focus.course m.unwindings flying parked

/-- While code runs, nothing is in flight. -/
theorem Flows.landed (h : m.Flows flying parked) (hRuns : m.focus.course = .runs) :
    flying = false := by
  unfold Flows at h
  rw [hRuns] at h
  exact Flow.landed h

/-- What a step does to the exceptions on their way, whatever the run. -/
theorem flows_step (hClear : m.poisoned = false) (hGoesOn : m.step.poisoned = false)
    (h : m.Flows flying parked) :
    m.step.Flows (m.deed.flies flying parked) (m.deed.parks flying parked) :=
  (shift_step hClear hGoesOn).flow h

/-- Nothing but the body of a thread waits when it starts. -/
theorem joints_start (process : Process) (auto : Bool) (limits : Option Limits)
    (body : List (Stmt ν)) :
    (start process auto limits body).joints = [.other, .other] ∨
    (start process auto limits body).joints = [] := by
  let fresh : Machine ν :=
    { toProcess := process
      control := [.block "" body [] none, .thread auto]
      focus := .next }
  have hFocus := focus_openThread fresh limits
  have hControl := control_openThread fresh limits
  unfold start
  cases auto with
  | false => exact .inl rfl
  | true =>
      simp only [if_true]
      generalize hOpen : openThread _ _ = opened
      change fresh.openThread limits = opened at hOpen
      cases opened with
      | mk outcome m =>
          rw [hOpen] at hFocus hControl
          simp only at hFocus hControl
          have hJoints : m.joints = [.other, .other] := by
            rw [joints, hFocus, hControl]
            rfl
          cases outcome with
          | overflowed => exact .inr rfl
          | opened => exact .inl hJoints
          | refused error => exact .inl hJoints

/-- No thread starts in the middle of an unwinding. -/
theorem flows_start (process : Process) (auto : Bool) (limits : Option Limits)
    (body : List (Stmt ν)) : (start process auto limits body).Flows false [] := by
  have hFlow := (sound_start False process auto limits body).flow
  have hHeld (joints : List Joint) (hJoints : joints = [.other, .other] ∨ joints = []) :
      Bone.held (joints.map Joint.bone) = 0 ∧ Bone.shields (joints.map Joint.bone) =
        [] := by
    obtain rfl | rfl := hJoints <;> exact ⟨rfl, rfl⟩
  obtain ⟨hNone, hShields⟩ := hHeld _ (joints_start process auto limits body)
  refine ⟨?_, fun hFlying => (by cases hFlying), ?_, False.elim⟩
  · rw [hNone]
    exact Nat.le_trans (Nat.add_le_add_right (Nat.zero_le _) _) hFlow.active
  · rw [hShields]
    exact .nil

end Machine

end Unwinding
