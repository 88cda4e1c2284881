import Mathlib.Data.List.Forall2
import Unwinding.Machine.Progress
import Unwinding.Proofs.Extent

/-!
# The exception that is on its way, and the code that waits

The runtime keeps one slot for a record in flight, and parks it while a guard body runs.
The machine knows where a raise is on its way: it unwinds, or it is held up by a handle
that it drops. `Flow` says that the two fit: a record is in flight only while a raise
unwinds, and a guard body parks a record only if it holds up a raise.

In a strict run the converse holds as well, as a count: there are at least as many
records as raises on their way. That is enough for a raise that arrives at a region to
find its record there (`Flow.flying_of_raise`).

All that matters of the code that waits is its `Bone`.
-/

namespace Unwinding

variable {ν : Type}

/-- What matters of a piece of waiting code for exceptions on their way.

Bodies and handlers of regions are as good as blocks here. -/
inductive Bone where
  | guarding
  | unwinding (payload : Payload)
  | resuming (payload : Payload)
  | other
  deriving DecidableEq

/-- Of the code that waits, only three things matter: that it is a guard body which has
to return first, that an unwinding waits there for a handle to be dropped, or that one
has been stopped there for a while. -/
def Resumption.bone : Resumption ν → Bone
  | .guarding _ => .guarding
  | .unwinding payload => .unwinding payload
  | .resuming payload => .resuming payload
  | _ => .other

/-- What matters of the thing that happens next: code runs, handles are dropped, or an
unwinding goes on. -/
inductive Course where
  | runs
  | drops
  | unwinds (payload : Payload)
  | stops
  deriving DecidableEq

/-- Statements, clauses and messages are code that runs; a block that ends and a scope
that is left drop handles. -/
def Focus.course : Focus ν → Course
  | .next => .drops
  | .drop _ => .drops
  | .leaveScope _ => .drops
  | .unwind payload => .unwinds payload
  | .stopped _ => .stops
  | _ => .runs

/-! ## Counting -/

namespace Bone

/-- The unwindings that are held up. -/
def held : List Bone → Nat
  | [] => 0
  | .unwinding _ :: below => held below + 1
  | _ :: below => held below

/-- The raises that are held up, or stopped for a while. -/
def raises : List Bone → Nat
  | [] => 0
  | .unwinding .raise :: below => raises below + 1
  | .resuming .raise :: below => raises below + 1
  | _ :: below => raises below

/-- Whether a raise is held up right here. -/
def holdsRaise : List Bone → Bool
  | .unwinding .raise :: _ => true
  | _ => false

/-- For each guard body that runs, whether a raise is held up by it. -/
def shields : List Bone → List Bool
  | [] => []
  | .guarding :: below => holdsRaise below :: shields below
  | _ :: below => shields below

section

variable (bones : List Bone) (payload : Payload)

@[simp] theorem held_other : held (.other :: bones) = held bones := rfl
@[simp] theorem held_guarding : held (.guarding :: bones) = held bones := rfl
@[simp] theorem held_unwinding : held (.unwinding payload :: bones) = held bones + 1 :=
    rfl
@[simp] theorem held_resuming : held (.resuming payload :: bones) = held bones := rfl

@[simp] theorem raises_other : raises (.other :: bones) = raises bones := rfl
@[simp] theorem raises_guarding : raises (.guarding :: bones) = raises bones := rfl

@[simp] theorem raises_unwinding :
    raises (.unwinding payload :: bones) = raises bones + if payload = .raise then
      1 else 0 := by
  cases payload <;> rfl

@[simp] theorem raises_resuming :
    raises (.resuming payload :: bones) = raises bones + if payload = .raise then 1 else
      0 := by
  cases payload <;> rfl

@[simp] theorem shields_other : shields (.other :: bones) = shields bones := rfl
@[simp] theorem shields_guarding :
    shields (.guarding :: bones) = holdsRaise bones :: shields bones := rfl
@[simp] theorem shields_unwinding :
    shields (.unwinding payload :: bones) = shields bones := rfl
@[simp] theorem shields_resuming :
    shields (.resuming payload :: bones) = shields bones := rfl

@[simp] theorem holdsRaise_other : holdsRaise (.other :: bones) = false := rfl
@[simp] theorem holdsRaise_guarding : holdsRaise (.guarding :: bones) = false := rfl
@[simp] theorem holdsRaise_unwinding :
    holdsRaise (.unwinding payload :: bones) = decide (payload = .raise) := by
  cases payload <;> rfl

end

/-- Each guard body that holds up a raise holds up one of its own. -/
theorem count_shields_le (bones : List Bone) :
    (shields bones).count true + (holdsRaise bones).toNat ≤ raises bones := by
  induction bones with
  | nil => simp [shields, holdsRaise]
  | cons bone below ih =>
      cases bone with
      | other => simp; omega
      | guarding =>
          rw [shields_guarding, raises_guarding, holdsRaise_guarding, List.count_cons]
          cases hHolds : holdsRaise below <;> simp [hHolds] at ih ⊢ <;> omega
      | unwinding payload =>
          rw [shields_unwinding, raises_unwinding, holdsRaise_unwinding]
          by_cases hRaise : payload = .raise <;> simp [hRaise] <;> omega
      | resuming payload =>
          simp [holdsRaise]
          omega

end Bone

/-! ## What is in flight -/

/-- A record may be in flight: a raise unwinds, or is held up by a handle that is being
dropped. -/
def MayFly (bones : List Bone) : Course → Prop
  | .runs => False
  | .drops => Bone.holdsRaise bones = true
  | .unwinds payload => payload = .raise
  | .stops => True

/-- The unwinding that goes on, as a number. -/
def Course.unwinding : Course → Nat
  | .unwinds _ => 1
  | _ => 0

/-- The raise that goes on, as a number. -/
def Course.raising : Course → Nat
  | .unwinds .raise => 1
  | _ => 0

/-- The record in flight and the parked ones fit the code that waits.

`carries` and `shields` bound what is in flight from above, and hold of every run in
turn. `pending` bounds it from below and needs a strict run: without that, a raise may
be under way whose record is gone. -/
structure Flow (strict : Prop) (bones : List Bone) (course : Course) (unwindings : Nat)
    (flying : Bool)
    (parked : List Bool) : Prop where
  active : Bone.held bones + course.unwinding ≤ unwindings
  carries : flying = true → MayFly bones course
  shields : List.Forall₂ (fun parks holds => parks = true → holds = true)
    parked (Bone.shields bones)
  pending : strict → Bone.raises bones + course.raising ≤ flying.toNat +
    parked.count true

private theorem count_le_of_forall₂ {parked holds : List Bool}
    (h : List.Forall₂ (fun parks holds => parks = true → holds = true) parked holds) :
    parked.count true ≤ holds.count true := by
  induction h with
  | nil => simp
  | @cons parks held _ _ hHead _ ih =>
      cases parks with
      | false => simp only [List.count_cons]; simp; omega
      | true => rw [hHead rfl]; simpa using ih

namespace Flow

variable {strict : Prop} {bones : List Bone} {course : Course} {unwindings : Nat}
    {flying : Bool} {parked : List Bool}
  {payload : Payload}

/-- In a strict run a raise that unwinds has its record. -/
theorem flying_of_raise
    (h : Flow strict bones (.unwinds .raise) unwindings flying parked)
    (hStrict : strict) :
    flying = true := by
  have hPending := h.pending hStrict
  have hCount := count_le_of_forall₂ h.shields
  have hShields := Bone.count_shields_le bones
  cases flying with
  | true => rfl
  | false =>
      simp only [Course.raising, Bool.toNat_false] at hPending
      omega

/-- While code runs, nothing is in flight. -/
theorem landed (h : Flow strict bones .runs unwindings flying parked) :
    flying = false := by
  cases flying with
  | false => rfl
  | true => exact absurd (h.carries rfl) id

private theorem landed_of_drops (h : Flow strict bones .drops unwindings flying parked)
    (hHolds : Bone.holdsRaise bones = false) :
    flying = false := by
  cases flying with
  | false => rfl
  | true => exact absurd (h.carries rfl) (by simp [MayFly, hHolds])

/-! ### Code that goes on -/

/-- Code that runs goes on, or comes to the handles of a block. -/
theorem run (h : Flow strict bones .runs unwindings flying parked) :
    Flow strict bones .drops unwindings flying parked := by
  obtain rfl := h.landed
  exact { h with carries := by simp }

/-- A thread that has stopped may leave anything behind. -/
theorem stop (h : Flow strict bones course unwindings flying parked) :
    Flow strict bones .stops unwindings flying parked where
  active := Nat.le_trans (Nat.le_add_right _ _) h.active
  carries := fun _ => trivial
  shields := h.shields
  pending := fun hStrict => Nat.le_trans (Nat.le_add_right _ _) (h.pending hStrict)

/-- A block takes its next statement, or hands its value on. -/
theorem resume (h : Flow strict (.other :: bones) .drops unwindings flying parked) :
    Flow strict (.other :: bones) .runs unwindings flying parked := by
  obtain rfl := h.landed_of_drops rfl
  exact { h with carries := by simp }

/-- Code that begins something waits for it to end. -/
theorem push (h : Flow strict bones .runs unwindings flying parked) :
    Flow strict (.other :: bones) .runs unwindings flying parked := by
  obtain rfl := h.landed
  exact { h with carries := by simp }

/-- Code that waited goes on. -/
theorem pop (h : Flow strict (.other :: bones) .runs unwindings flying parked) :
    Flow strict bones .runs unwindings flying parked := by
  obtain rfl := h.landed
  exact { h with carries := by simp }

/-! ### Unwindings -/

/-- A panic begins: one more unwinding, and nothing in flight. -/
theorem panic (h : Flow strict bones .runs unwindings flying parked)
    (hPanic : payload ≠ .raise) :
    Flow strict bones (.unwinds payload) (unwindings + 1) flying parked where
  active := Nat.add_le_add_right h.active 1
  carries := by simp [h.landed]
  shields := h.shields
  pending := fun hStrict => by
    have hPending := h.pending hStrict
    cases payload <;> first | exact absurd rfl hPanic | exact hPending

/-- A raise begins: one more unwinding, and its record is in flight from here on. -/
theorem raise (h : Flow strict bones .runs unwindings flying parked) :
    Flow strict bones (.unwinds .raise) (unwindings + 1) true parked where
  active := Nat.add_le_add_right h.active 1
  carries := fun _ => rfl
  shields := h.shields
  pending := fun hStrict => by
    have hPending := h.pending hStrict
    simp only [h.landed, Course.raising, Bool.toNat_false, Bool.toNat_true] at *
    omega

/-- An unwinding passes waiting code. -/
theorem pass
    (h : Flow strict (.other :: bones) (.unwinds payload) unwindings flying parked) :
    Flow strict bones (.unwinds payload) unwindings flying parked :=
  { h with }

/-- An unwinding is held up by a handle that it drops. -/
theorem hold
    (h : Flow strict (.other :: bones) (.unwinds payload) unwindings flying parked) :
    Flow strict (.unwinding payload :: .other :: bones) .drops unwindings flying parked
      where
  active := h.active
  carries := fun hFlying => by
    have : payload = .raise := h.carries hFlying
    simp [MayFly, this]
  shields := h.shields
  pending := fun hStrict => by
    have hPending := h.pending hStrict
    cases payload <;> simpa [Course.raising] using hPending

/-- The handle is gone, and the unwinding goes on. -/
theorem release
    (h : Flow strict (.unwinding payload :: bones) course unwindings flying parked)
    (hCourse : course = .runs ∨ course = .drops) :
    Flow strict bones (.unwinds payload) unwindings flying parked where
  active := Nat.le_trans (by simp [Course.unwinding]) h.active
  carries := fun hFlying => by
    obtain rfl | rfl := hCourse
    · exact absurd (h.carries hFlying) id
    · simpa [MayFly] using h.carries hFlying
  shields := h.shields
  pending := fun hStrict => by
    have hPending := h.pending hStrict
    obtain rfl | rfl :=
      hCourse <;> cases payload <;> simpa [Course.raising] using hPending

/-- The thread stops, and with it an unwinding that was held up. -/
theorem lose
    (h : Flow strict (.unwinding payload :: bones) course unwindings flying parked) :
    Flow strict bones .stops unwindings flying parked where
  active := by
    have := h.active
    simp only [Bone.held_unwinding, Course.unwinding] at *
    omega
  carries := fun _ => trivial
  shields := h.shields
  pending := fun hStrict => by
    have hPending := h.pending hStrict
    simp only [Bone.raises_unwinding, Course.raising] at *
    omega

/-- An unwinding that was stopped for a while goes on. -/
theorem again
    (h : Flow strict (.resuming payload :: bones) .runs unwindings flying parked) :
    Flow strict bones (.unwinds payload) (unwindings + 1) flying parked where
  active := Nat.add_le_add_right h.active 1
  carries := by simp [h.landed]
  shields := h.shields
  pending := fun hStrict => by
    have hPending := h.pending hStrict
    cases payload <;> simpa [Course.raising] using hPending

/-- An unwinding goes past code that wanted to go on with another one. -/
theorem overtake {other : Payload}
    (h : Flow strict (.resuming other :: bones) (.unwinds payload) unwindings flying
      parked) :
    Flow strict bones (.unwinds payload) unwindings flying parked :=
  { h with
    pending := fun hStrict => by
      have hPending := h.pending hStrict
      simp only [Bone.raises_resuming] at hPending
      omega }

/-- A region catches a raise with its record. -/
theorem caught
    (h : Flow strict (.other :: bones) (.unwinds .raise) unwindings true parked) :
    Flow strict bones .runs (unwindings - 1) false parked where
  active := by
    have := h.active
    simp only [Course.unwinding, Bone.held_other] at *
    omega
  carries := by simp
  shields := h.shields
  pending := fun hStrict => by
    have hPending := h.pending hStrict
    simp only [Course.raising, Bool.toNat_true, Bool.toNat_false, Bone.raises_other]
      at *
    omega

/-- Code that knows nothing of the runtime stops a panic. -/
theorem attempt
    (h : Flow strict (.other :: bones) (.unwinds payload) unwindings flying parked)
    (hPanic : payload ≠ .raise) :
    Flow strict bones .runs (unwindings - 1) flying parked where
  active := by
    have := h.active
    simp only [Course.unwinding, Bone.held_other] at *
    omega
  carries := fun hFlying => absurd (h.carries hFlying) hPanic
  shields := h.shields
  pending := fun hStrict => by
    have hPending := h.pending hStrict
    cases payload <;> first | exact absurd rfl hPanic | exact hPending

/-- The unwinding that was stopped waits for other code. -/
theorem postpone (h : Flow strict bones .runs unwindings flying parked)
    (hPanic : payload ≠ .raise) :
    Flow strict (.resuming payload :: bones) .runs unwindings flying parked where
  active := h.active
  carries := fun hFlying => h.carries hFlying
  shields := h.shields
  pending := fun hStrict => by simpa [hPanic] using h.pending hStrict

/-- Something else runs while a panic waits. -/
theorem suspend (h : Flow strict bones (.unwinds payload) unwindings flying parked)
    (hPanic : payload ≠ .raise) :
    Flow strict (.unwinding payload :: bones) .runs unwindings flying parked where
  active := h.active
  carries := fun hFlying => absurd (h.carries hFlying) hPanic
  shields := h.shields
  pending := fun hStrict => by
    have hPending := h.pending hStrict
    cases payload <;> first | exact absurd rfl hPanic | exact hPending

/-! ### Guard bodies -/

/-- A guard body begins; what was in flight is parked. -/
theorem shield (h : Flow strict bones .drops unwindings flying parked) :
    Flow strict (.guarding :: bones) .runs unwindings false (flying :: parked) where
  active := h.active
  carries := by simp
  shields := .cons (fun hFlying => h.carries hFlying) h.shields
  pending := fun hStrict => by
    have hPending := h.pending hStrict
    cases flying <;> simp [Course.raising] at * <;> omega

/-- A guard body has ended; what it parked is in flight again. -/
theorem unshield {parks : Bool}
    (h : Flow strict (.guarding :: bones) .runs unwindings flying (parks :: parked)) :
    Flow strict bones .drops unwindings parks parked where
  active := h.active
  carries := fun hParks => by
    cases h.shields with
    | cons hHead _ => exact hHead hParks
  shields := by
    cases h.shields with
    | cons _ hRest => exact hRest
  pending := fun hStrict => by
    have hPending := h.pending hStrict
    obtain rfl := h.landed
    cases parks <;> simp [Course.raising] at * <;> omega

/-- An explicit region that is abandoned releases what was in flight. -/
theorem abandon (h : Flow strict bones .drops unwindings flying parked)
    (hStrict : strict → flying = false) :
    Flow strict bones .drops unwindings false parked :=
  { h with
    carries := by simp
    pending := fun hS => by
      have hPending := h.pending hS
      rwa [hStrict hS] at hPending }

end Flow

/-! ## Waiting code and handles -/

/-- The bones of the code that waits. -/
def Machine.bones (m : Machine ν) : List Bone :=
  m.control.map Resumption.bone

section

variable {β : Type} {f : Resumption ν → β}

/-- What does not look at the handles of blocks is the same when a handle is taken
away. -/
theorem map_take? (hBlock : ∀ word rest handles handles' value,
      f (.block word rest handles value) = f (.block word rest handles' value))
    {name : String} {control rest : List (Resumption ν)} {handle : Handle ν}
    (h : Handle.take? name control = some (handle, rest)) :
      rest.map f = control.map f := by
  induction control generalizing rest with
  | nil => cases h
  | cons waiting below ih =>
      unfold Handle.take? at h
      split at h
      · cases h
      · next hEq =>
          obtain ⟨rfl, rfl⟩ := List.cons.inj hEq
          split at h
          · cases h
            exact congrArg (· :: below.map f) (hBlock _ _ _ _ _)
          · obtain ⟨⟨found, left⟩, hLeft, hBoth⟩ := Option.map_eq_some_iff.1 h
            cases hBoth
            simp [ih hLeft]
      · next hEq =>
          obtain ⟨rfl, rfl⟩ := List.cons.inj hEq
          obtain ⟨⟨found, left⟩, hLeft, hBoth⟩ := Option.map_eq_some_iff.1 h
          cases hBoth
          simp [ih hLeft]

/-- No view of the waiting code that takes no notice of handles can tell that one has
been replaced. -/
theorem map_put (hBlock : ∀ word rest handles handles' value,
      f (.block word rest handles value) = f (.block word rest handles' value))
    (name : String) (handle : Handle ν) (control : List (Resumption ν)) :
    (Handle.put name handle control).map f = control.map f := by
  induction control with
  | nil => rfl
  | cons waiting below ih =>
      unfold Handle.put
      split
      · next hEq => cases hEq
      · next hEq =>
          obtain ⟨rfl, rfl⟩ := List.cons.inj hEq
          split
          · exact congrArg (· :: below.map f) (hBlock _ _ _ _ _)
          · simp [ih]
      · next hEq =>
          obtain ⟨rfl, rfl⟩ := List.cons.inj hEq
          simp [ih]

/-- Nor that a block has got one more. -/
theorem map_own (hBlock : ∀ word rest handles handles' value,
      f (.block word rest handles value) = f (.block word rest handles' value))
    (m : Machine ν) (name : String) (handle : Handle ν) :
    (m.own name handle).control.map f = m.control.map f := by
  unfold Machine.own
  split
  · next below hControl =>
      rw [hControl]
      exact congrArg (· :: below.map f) (hBlock _ _ _ _ _)
  · rfl

end

/-- To take a handle out of its block leaves the bones of the waiting code as they
are. -/
theorem bone_take? {name : String} {control rest : List (Resumption ν)}
    {handle : Handle ν} (h : Handle.take? name control = some (handle, rest)) :
    rest.map Resumption.bone = control.map Resumption.bone :=
  map_take? (fun _ _ _ _ _ => rfl) h

/-- To replace a handle leaves them as they are. -/
theorem bone_put (name : String) (handle : Handle ν) (control : List (Resumption ν)) :
    (Handle.put name handle control).map Resumption.bone =
      control.map Resumption.bone :=
  map_put (fun _ _ _ _ _ => rfl) name handle control

/-- And so does to get one. -/
theorem bone_own (m : Machine ν) (name : String) (handle : Handle ν) :
    (m.own name handle).bones = m.bones :=
  map_own (fun _ _ _ _ _ => rfl) m name handle

end Unwinding
