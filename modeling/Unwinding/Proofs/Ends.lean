import Unwinding.Context.Raise

/-!
# How a step ends

A bookkeeping step either answers, with the context it leaves behind, or fails. `Ends
outcome answers fails` says which answers and which failures an outcome may be. Laws
about the steps are stated with it: a law in which `fails` is empty says that the step
cannot fail, and one that bounds `fails` says how it can.

Sequences are taken apart by `ends_bind` alone, so no law about a step has to look at
the state monad.
-/

namespace Unwinding

open Context

variable {α β : Type}

/-- An outcome is one of the answers, or one of the failures.

An operation is looked at from one context. What it answers is said together with the
context it leaves, and what it fails with is said alone. -/
def Ends (outcome : EStateM.Result Error Context α) (answers : α → Context → Prop)
    (fails : Error → Prop) : Prop :=
  match outcome with
  | .ok answer context => answers answer context
  | .error error _ => fails error

variable {answers : α → Context → Prop} {fails : Error → Prop}

/-- What an operation is said to answer, and how it is said to fail, may both be
weakened. -/
theorem Ends.mono {outcome : EStateM.Result Error Context α}
    {weaker : α → Context → Prop} {more : Error → Prop} (h : Ends outcome answers fails)
    (hAnswers : ∀ answer context, answers answer context → weaker answer context)
    (hFails : ∀ error, fails error → more error) : Ends outcome weaker more := by
  cases outcome with
  | ok answer context => exact hAnswers _ _ h
  | error error context => exact hFails _ h

/-- The same, when only what is said of the answers is weakened. -/
theorem Ends.imp {outcome : EStateM.Result Error Context α}
    {weaker : α → Context → Prop} (h : Ends outcome answers fails)
    (hAnswers : ∀ answer context, answers answer context → weaker answer context) :
    Ends outcome weaker fails :=
  h.mono hAnswers fun _ => id

/-- A step that ends in one of the answers and cannot fail. -/
theorem Ends.answer {outcome : EStateM.Result Error Context α}
    (h : Ends outcome answers fun _ => False) :
    ∃ answer context, outcome = .ok answer context ∧ answers answer context := by
  cases outcome with
  | ok answer context => exact ⟨answer, context, rfl, h⟩
  | error error context => exact absurd h id

/-! ## Sequences -/

/-- A value is an answer in the context that is there. -/
theorem ends_pure {context : Context} {a : α} (h : answers a context) :
    Ends ((pure a : Step α) context) answers fails := h

/-- A contradiction is a failure. -/
theorem ends_fail {context : Context} {cause : Corruption}
    (h : fails (.corrupted cause)) :
    Ends ((fail cause : Step α) context) answers fails := h

/-- What comes second is judged in every context in which what comes first may have
answered. -/
theorem ends_bind {context : Context} {first : Step β} {rest : β → Step α}
    (h : Ends (first context) (fun b context => Ends (rest b context) answers fails)
      fails) :
    Ends ((first >>= rest) context) answers fails := by
  change Ends (EStateM.bind first rest context) answers fails
  unfold EStateM.bind
  cases hFirst : first context with
  | ok b context => simpa only [hFirst, Ends] using h
  | error error context => simpa only [hFirst, Ends] using h

/-- The context that is looked at is the answer, and stays as it is. -/
theorem ends_get {context : Context} {answers : Context → Context → Prop}
    (h : answers context context) :
    Ends ((get : Step Context) context) answers fails := h

/-- A change of the context never fails. -/
theorem ends_modify {context : Context} {f : Context → Context}
    {answers : Unit → Context → Prop} (h : answers () (f context)) :
    Ends ((modify f : Step Unit) context) answers fails := h

/-- A notice goes to the journal. -/
theorem ends_note {context : Context} {notice : Notice}
    {answers : Unit → Context → Prop}
    (h : answers () { context with journal := notice :: context.journal }) :
    Ends (note notice context) answers fails := h

/-- A number that is drawn is the next one, and the next one goes up. -/
theorem ends_freshId {context : Context} {answers : Nat → Context → Prop}
    (h : answers context.nextId { context with nextId := context.nextId + 1 }) :
    Ends (freshId context) answers fails := h

/-- What is computed apart from the context leaves it as it is, and ends or fails as
computed. -/
theorem ends_ofExcept {context : Context} {outcome : Except Error α}
    (hOk : ∀ a, outcome = .ok a → answers a context)
    (hError : ∀ error, outcome = .error error → fails error) :
    Ends (ofExcept outcome context) answers fails := by
  cases outcome with
  | ok a => exact hOk a rfl
  | error error => exact hError error rfl

/-! ## Operations on one stack -/

section

variable {context : Context} {answers : Unit → Context → Prop}

/-- An operation on the region stack alone ends as it does on that stack. -/
theorem ends_onRegions {f : Stack Region → Except Error (Stack Region)}
    (hOk : ∀ stack, f context.regions = .ok stack →
      answers () { context with regions := stack })
    (hError : ∀ error, f context.regions = .error error → fails error) :
    Ends (onRegions f context) answers fails :=
  ends_bind
    (ends_get
    (ends_bind (ends_ofExcept (fun stack h => ends_modify (hOk stack h)) hError)))

/-- An operation on the dispatch stack alone ends as it does on that stack. -/
theorem ends_onDispatch {f : Stack Dispatch → Except Error (Stack Dispatch)}
    (hOk : ∀ stack, f context.dispatch = .ok stack →
      answers () { context with dispatch := stack })
    (hError : ∀ error, f context.dispatch = .error error → fails error) :
    Ends (onDispatch f context) answers fails :=
  ends_bind
    (ends_get
    (ends_bind (ends_ofExcept (fun stack h => ends_modify (hOk stack h)) hError)))

/-- An operation on the marks of the guard scopes alone ends as it does on them. -/
theorem ends_onGuards {f : Stack ScopeMark → Except Error (Stack ScopeMark)}
    (hOk : ∀ stack, f context.guards = .ok stack →
      answers () { context with guards := stack })
    (hError : ∀ error, f context.guards = .error error → fails error) :
    Ends (onGuards f context) answers fails :=
  ends_bind
    (ends_get
    (ends_bind (ends_ofExcept (fun stack h => ends_modify (hOk stack h)) hError)))

/-- An operation on the frames alone ends as it does on them. -/
theorem ends_onFrames {f : Frames → Except Error Frames}
    (hOk : ∀ stack, f context.frames = .ok stack →
      answers () { context with frames := stack })
    (hError : ∀ error, f context.frames = .error error → fails error) :
    Ends (onFrames f context) answers fails :=
  ends_bind
    (ends_get
    (ends_bind (ends_ofExcept (fun stack h => ends_modify (hOk stack h)) hError)))

/-- An operation on the records alone ends as it does on them. -/
theorem ends_onRecords {f : Records → Except Error Records}
    (hOk : ∀ stack, f context.records = .ok stack →
      answers () { context with records := stack })
    (hError : ∀ error, f context.records = .error error → fails error) :
    Ends (onRecords f context) answers fails :=
  ends_bind
    (ends_get
    (ends_bind (ends_ofExcept (fun stack h => ends_modify (hOk stack h)) hError)))

end

/-- A step failed because a stack had no room. -/
def NoRoom (error : Error) : Prop :=
  ∃ stack limit, error = .capacityExceeded stack limit

/-- A step failed because the stacks contradict what a handle remembers of them, or ran
out of entries. -/
def Contradicted (error : Error) : Prop :=
  (∃ cause, error = .corrupted cause) ∨ ∃ stack, error = .stackUnderflow stack

/-- A stack that is full is no contradiction: the two ways to fail exclude each
other. -/
theorem NoRoom.not_contradicted {error : Error} (h : NoRoom error) :
    ¬ Contradicted error := by
  obtain ⟨stack, limit, rfl⟩ := h
  rintro (⟨_, h⟩ | ⟨_, h⟩) <;> cases h

namespace Stack

variable {stack stack' : Stack α}

private theorem checkCapacity_error {error : Error}
    (h : stack.checkCapacity = .error error) : NoRoom error := by
  unfold checkCapacity at h
  split at h
  · exact ⟨_, _, (Except.error.inj h).symm⟩
  · cases h

/-- To place an entry on a stack that has a node for it fails only for want of room. -/
theorem place_error {entry : α} {error : Error} (h : stack.place entry = .error error) :
    NoRoom error := by
  unfold place refill at h
  cases hRoom : stack.checkCapacity with
  | ok _ => rw [hRoom] at h; cases h
  | error e =>
      rw [hRoom] at h
      cases h
      exact checkCapacity_error hRoom

/-- To push an entry fails only for want of room. -/
theorem push_error {entry : α} {error : Error} (h : stack.push entry = .error error) :
    NoRoom error := by
  unfold push at h
  cases hRoom : stack.checkCapacity with
  | ok _ => rw [hRoom] at h; cases h
  | error e =>
      rw [hRoom] at h
      cases h
      exact checkCapacity_error hRoom

/-- A stack that takes an entry had room for it, and keeps its capacity. -/
theorem place_room {entry : α} (h : stack.place entry = .ok stack') :
    stack'.limit = stack.limit ∧ stack.live.length < stack.limit := by
  unfold place refill at h
  cases hRoom : stack.checkCapacity with
  | error e => rw [hRoom] at h; cases h
  | ok u =>
      rw [hRoom] at h
      cases h
      exact ⟨rfl, checkCapacity_eq_ok.1 hRoom⟩

/-- An entry that could be pushed had room, and the limit stays what it is. -/
theorem push_room {entry : α} (h : stack.push entry = .ok stack') :
    stack'.limit = stack.limit ∧ stack.live.length < stack.limit := by
  unfold push at h
  cases hRoom : stack.checkCapacity with
  | error e => rw [hRoom] at h; cases h
  | ok u =>
      rw [hRoom] at h
      cases h
      exact ⟨rfl, checkCapacity_eq_ok.1 hRoom⟩

/-- A stack below its capacity takes an entry. -/
theorem push_of_room (entry : α) (h : stack.live.length < stack.limit) :
    ∃ pushed, stack.push entry = .ok pushed ∧ pushed.live = entry :: stack.live ∧
      pushed.limit = stack.limit := by
  cases hPush : stack.push entry with
  | ok pushed => exact ⟨pushed, rfl, (live_push hPush).1, (push_room hPush).1⟩
  | error e =>
      unfold push at hPush
      rw [checkCapacity_eq_ok.2 h] at hPush
      cases hPush

/-- A stack with an entry gives its top entry away. -/
theorem take_of_live {top : α} {rest : List α} (h : stack.live = top :: rest) :
    ∃ taken, stack.take = .ok (top, taken) ∧ taken.live = rest ∧
      taken.limit = stack.limit := by
  unfold take
  split
  · next node live hLive =>
      rw [h] at hLive
      obtain ⟨rfl, rfl⟩ := List.cons.inj hLive
      exact ⟨_, rfl, rfl, rfl⟩
  · next hNil => rw [h] at hNil; cases hNil

/-- A stack with an entry gives its top entry up. -/
theorem pop_of_live {top : α} {rest : List α} (h : stack.live = top :: rest) :
    ∃ popped, stack.pop = .ok (top, popped) ∧ popped.live = rest := by
  cases hPop : stack.pop with
  | ok result =>
      have := (live_pop hPop).1
      rw [h] at this
      obtain ⟨rfl, hRest⟩ := List.cons.inj this
      exact ⟨result.2, rfl, hRest.symm⟩
  | error e =>
      unfold pop at hPop
      split at hPop
      · cases hPop
      · next hNil => rw [h] at hNil; cases hNil

/-- The top of a stack is the newest of its entries. -/
theorem top?_of_live {top : α} {rest : List α} (h : stack.live = top :: rest) :
    stack.top? = some top := by
  rw [top?, h]
  rfl

/-- A stack that is truncated to the depth of some bottom entries has just those
left. -/
theorem live_bottom_append {above below : List α} (h : stack.live = above ++ below)
    {depth : Nat} (hDepth : depth = below.length) :
    (stack.truncate depth).live = below := by
  rw [live_truncate, hDepth, bottom_of_append h]

end Stack

end Unwinding
