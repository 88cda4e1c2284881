import Unwinding.Proofs.PlainLaws
import Unwinding.Proofs.Readings
import Unwinding.Proofs.Scopes

/-!
# What waiting code stands for

Seen from the code that runs, the code that waits is a function: it takes what comes of
the running code, and goes on. `Waits` says which function that is, frame by frame, in
terms of the plain evaluator. What runs may come to a value, complete a statement or
drop a handle, or it unwinds, and the code that waits can go on from some of these
points only.

Two things that the runtime keeps elsewhere have their places here: an exception that is
held up stands where its unwinding waits, and what a body had to report when another
region was entered in it stands where that region waits. A block that is being left
keeps a bound for the number of its handles, because code that runs in between may give
up some of them.

`Machine.Reads` says what a machine comes to: the code that its focus stands for,
followed by the code that waits.

## Main results

* `Waits.congr`, `Waits.shrink` — what waiting code stands for does not change with what
  it does not look at.
* `Machine.Reads.shown` — what a machine has shown is the beginning of what it comes to.
-/

namespace Unwinding

open Plain

variable {ν : Type}

/-! ## Points -/

/-- Where code goes on that waits. -/
inductive Point where
  | value
  | statement
  | drop
  | unwinding

/-- What comes of the running code at a point; an unwinding comes to nothing. -/
def Point.Answer (ν : Type) : Point → Type
  | .value => Option ν
  | .statement => Option (Option ν)
  | .drop => Unit
  | .unwinding => Empty

/-- The rest of a block, from a statement on. -/
def Plain.followStatement (runs : List (Stmt ν) → Plain ν (Option ν)) (word : String)
    (rest : List (Stmt ν)) (value : Option ν)
    (follows : Except Thrown (Option ν) → Plain ν (Option ν))
    (outcome : Except Thrown (Option (Option ν))) : Plain ν (Option ν) :=
  ((afterStatement runs word rest value outcome).meet (leaveBlock runs)).meet follows

/-- What an unwinding throws, with the exception that is on its way. If none is, a raise
may throw anything: nothing will catch it. -/
inductive Payload.Throws : Payload → Option Raised → Thrown → Prop
  | raise {flight : Option Raised} {raised : Raised}
    (isOwn : ∀ other, flight = some other → other = raised) :
      Throws .raise flight (.raised raised)
  | panic {text : Option String} : Throws (.panic text) none (.panicked text)

/-- To code that knows nothing of exceptions, what is thrown is the unwinding that it
stands for. -/
theorem Payload.Throws.payload {payload : Payload} {flight : Option Raised}
    {thrown : Thrown} (h : payload.Throws flight thrown) :
    thrown.payload? = some payload := by
  cases h <;> rfl

private theorem Payload.Throws.landed {payload : Payload} {flight : Option Raised}
    {thrown : Thrown} (h : payload.Throws flight thrown) :
    payload.Throws none thrown := by
  cases h with
  | raise isOwn => exact .raise fun _ hOther => nomatch hOther
  | panic => exact .panic

/-- A scope has a mark as soon as something is registered in it. -/
def Handle.IsMarked : Handle ν → Prop
  | .guards scope => scope.mark = none → scope.bodies = []
  | _ => True

/-- The handles of a block are marked. -/
def AllMarked (handles : List (String × Handle ν)) : Prop :=
  ∀ entry ∈ handles, entry.2.IsMarked

/-- A block without handles has nothing to mark. -/
theorem allMarked_nil : AllMarked ([] : List (String × Handle ν)) :=
  fun _ hMem => nomatch hMem

/-- If the handles of a block are marked, those below the newest one are. -/
theorem AllMarked.tail {entry : String × Handle ν} {handles : List (String × Handle ν)}
    (h : AllMarked (entry :: handles)) :
    AllMarked handles :=
  fun other hMem => h other (List.mem_cons_of_mem _ hMem)

/-! ## Waiting code -/

/-- The plain code that waiting code stands for at a point, with what the bodies around
have to report, the number of guard bodies that may still run inside each other, and the
exceptions that are held up.

The index `follows` is a function of what the running code comes to, so this says by the
shape of the waiting code what the rest of the program does with every outcome. It is
built up in the order in which code began to wait. -/
inductive Waits (pend : Nat → Option Site) :
    (point : Point) → Nat → List (Option Raised) → List (Resumption ν) →
    (Except Thrown (point.Answer ν) → Plain ν (Option ν)) → Prop
  | bare {clock : Nat} : Waits pend .value clock [none] [] give
  | thread {clock : Nat} {auto : Bool} : Waits pend .value clock [none] [.thread auto]
      give
  | statement {clock : Nat} {travels : List (Option Raised)}
      {control : List (Resumption ν)} {word : String}
      {rest : List (Stmt ν)} {handles : List (String × Handle ν)} {value : Option ν}
      {follows : Except Thrown (Option ν) → Plain ν (Option ν)}
      (below : Waits pend .value clock (none :: travels) control follows)
      (marked : AllMarked handles) :
      Waits pend .statement clock (none :: travels)
        (.block word rest handles value :: control)
        (followStatement (runAt clock) word rest value follows)
  | block {clock : Nat} {travels : List (Option Raised)} {control : List (Resumption ν)}
      {word : String}
      {rest : List (Stmt ν)} {handles : List (String × Handle ν)} {value : Option ν}
      {follows : Except Thrown (Option ν) → Plain ν (Option ν)}
      (below : Waits pend .value clock (none :: travels) control follows)
      (marked : AllMarked handles) :
      Waits pend .value clock (none :: travels)
        (.block word rest handles value :: control) fun outcome =>
        followStatement (runAt clock) word rest value follows (outcome.map some)
  | body {clock : Nat} {travels : List (Option Raised)} {control : List (Resumption ν)}
      {region : Protected ν}
      {follows : Except Thrown (Option ν) → Plain ν (Option ν)}
      (below : Waits pend .value clock (none :: travels) control follows) :
      Waits pend .value clock (none :: travels) (.body region :: control) fun outcome =>
        (afterBody region.mode (Clause.offer (runAt clock) region.clauses 0)
          ((bodies control).head?.bind pend) outcome).meet follows
  | handler {clock : Nat} {travels : List (Option Raised)}
      {control : List (Resumption ν)} {region : Protected ν} {raised : Raised}
      {follows : Except Thrown (Option ν) → Plain ν (Option ν)}
      (below : Waits pend .value clock (none :: travels) control follows) :
      Waits pend .value clock (none :: travels) (.handler region :: control)
        fun outcome =>
        (afterClauses region.mode raised (outcome.map some)).meet follows
  | attempt {clock : Nat} {travels : List (Option Raised)}
      {control : List (Resumption ν)} {resume : Option (List (Stmt ν))}
      {follows : Except Thrown (Option (Option ν)) → Plain ν (Option ν)}
      (below : Waits pend .statement clock (none :: travels) control follows) :
      Waits pend .value clock (none :: travels) (.attempt resume :: control)
        fun outcome =>
        (afterAttempt
          (resume.map fun between => block (runAt clock)
          (Stmt.evals (runAt clock) between none)) outcome).meet follows
  | resuming {clock : Nat} {travels : List (Option Raised)}
      {control : List (Resumption ν)} {text : Option String}
      {follows : Except Thrown (Option (Option ν)) → Plain ν (Option ν)}
      (below : Waits pend .statement clock (none :: travels) control follows) :
      Waits pend .value clock (none :: travels) (.resuming (.panic text) :: control)
        fun outcome =>
        follows (instead (.panicked text) outcome)
  | loop {clock : Nat} {travels : List (Option Raised)} {control : List (Resumption ν)}
      {times : Nat} {body : List (Stmt ν)}
      {follows : Except Thrown (Option (Option ν)) → Plain ν (Option ν)}
      (below : Waits pend .statement clock (none :: travels) control follows) :
      Waits pend .value clock (none :: travels) (.loop times body :: control)
        fun outcome =>
        ((give outcome).andThen fun _ =>
          repeats (block (runAt clock) (Stmt.evals (runAt clock) body none)) times).meet
            follows
  | message {clock : Nat} {travels : List (Option Raised)}
      {control : List (Resumption ν)} {raising : Raising}
      {pieces : List (Piece ν)}
      {follows : Except Thrown (Option (Option ν)) → Plain ν (Option ν)}
      (below : Waits pend .statement clock (none :: travels) control follows) :
      Waits pend .value clock (none :: travels) (.message raising pieces :: control)
        fun outcome =>
        (((give outcome).andThen fun _ => Piece.write (runAt clock)
          pieces raising.buffer).meet (finishRaise raising.kind raising.site)).meet
          follows
  | guarding {clock : Nat} {travels : List (Option Raised)}
      {control : List (Resumption ν)} {scope : Leaving ν}
      {follows : Except Thrown Unit → Plain ν (Option ν)}
      (below : Waits pend .drop (clock + 1) travels control follows) :
      Waits pend .value clock (none :: travels) (.guarding scope :: control)
        fun outcome =>
        ((afterGuardBody outcome).andThen fun _ => guardBodies (runAt (clock + 1))
          scope.unwinding scope.bodies).meet follows
  /-- A block whose statements are not done. -/
  | running {clock : Nat} {travels : List (Option Raised)}
      {control : List (Resumption ν)} {word : String}
      {rest : List (Stmt ν)} {handles : List (String × Handle ν)} {value : Option ν}
      {follows : Except Thrown (Option ν) → Plain ν (Option ν)}
      (below : Waits pend .value clock (none :: travels) control follows)
      (marked : AllMarked handles) :
      Waits pend .drop clock (none :: travels)
        (.block word rest handles value :: control) fun outcome =>
        (((give outcome).andThen fun _ => Stmt.evals (runAt clock) rest value).meet
          (leaveBlock (runAt clock))).meet follows
  /-- A block that is being left with its value. -/
  | closing {clock count : Nat} {travels : List (Option Raised)}
      {control : List (Resumption ν)} {word : String}
      {handles : List (String × Handle ν)} {value : Option ν}
      {follows : Except Thrown (Option ν) → Plain ν (Option ν)}
      (below : Waits pend .value clock (none :: travels) control follows)
      (marked : AllMarked handles)
      (bound : handles.length ≤ count) :
      Waits pend .drop clock (none :: travels) (.block word [] handles value :: control)
        fun outcome =>
        (((give outcome).andThen fun _ => dropHandles (runAt clock) false count).andThen
          fun _ => give (.ok value)).meet follows
  | releasing {clock : Nat} {travels : List (Option Raised)}
      {control : List (Resumption ν)}
      {follows : Except Thrown (Option (Option ν)) → Plain ν (Option ν)}
      (below : Waits pend .statement clock (none :: travels) control follows) :
      Waits pend .drop clock (none :: travels) (.releasing :: control)
        fun outcome => follows (outcome.map fun _ => none)
  /-- A block that is being left by an unwinding, which a handle holds up. -/
  | unwinding {clock count : Nat} {flight : Option Raised}
      {travels : List (Option Raised)} {control : List (Resumption ν)}
      {word : String} {rest : List (Stmt ν)} {handles : List (String × Handle ν)}
      {value : Option ν} {payload : Payload}
      {thrown : Thrown} {follows : Except Thrown (Option ν) → Plain ν (Option ν)}
      (below : Waits pend .value clock (none :: travels) control follows)
      (marked : AllMarked handles)
      (bound : handles.length ≤ count) (throws : payload.Throws flight thrown) :
      Waits pend .drop clock (flight :: travels)
        (.unwinding payload :: .block word rest handles value :: control) fun outcome =>
        (((give outcome).andThen fun _ => dropHandles (runAt clock) true count).andThen
          fun _ => give (.error thrown)).meet follows
  /-- A block that is being left by an unwinding. -/
  | passing {clock count : Nat} {travels : List (Option Raised)}
      {control : List (Resumption ν)} {word : String}
      {rest : List (Stmt ν)} {handles : List (String × Handle ν)} {value : Option ν}
      {follows : Except Thrown (Option ν) → Plain ν (Option ν)}
      (below : Waits pend .value clock (none :: travels) control follows)
      (marked : AllMarked handles)
      (bound : handles.length ≤ count) :
      Waits pend .unwinding clock (none :: travels)
        (.block word rest handles value :: control) fun outcome =>
        (leaving (runAt clock) true count (outcome.map Empty.elim)).meet follows
  | arriving {clock : Nat} {travels : List (Option Raised)}
      {control : List (Resumption ν)}
      {follows : Except Thrown (Option ν) → Plain ν (Option ν)}
      (on : Waits pend .value clock travels control follows) :
      Waits pend .unwinding clock travels control
        fun outcome => follows (outcome.map Empty.elim)

/-! ## What a machine comes to -/

namespace Machine

/-- The plain code that the focus of a machine stands for, with the exceptions on their
way, the point that it comes to, and the exceptions that are then held up. -/
inductive Means (clock : Nat) (m : Machine ν) :
    List (Option Raised) → (point : Point) → List (Option Raised) →
      Plain ν (point.Answer ν) → Prop
  | next {travels : List (Option Raised)} (hFocus : m.focus = .next) :
      Means clock m travels .drop travels (give (.ok ()))
  | exec {travels : List (Option Raised)} {stmt : Stmt ν}
      (hFocus : m.focus = .exec stmt) :
      Means clock m travels .statement travels (stmt.eval (runAt clock))
  /-- The regions inside another one are its body. -/
  | protect {travels : List (Option Raised)} {levels : Nat} {site : Site} {mode : Mode}
      {clauses : List (Clause ν)}
      {body : List (Stmt ν)}
      (hFocus : m.focus = .exec (.protect levels site mode clauses body)) :
      Means clock m travels .value travels
        (nested (region site mode (Clause.offer (runAt clock) clauses 0))
        levels (block (runAt clock) (Stmt.evals (runAt clock) body none)))
  | complete {travels : List (Option Raised)} {value : Option (Option ν)}
      (hFocus : m.focus = .complete value) :
      Means clock m travels .statement travels (give (.ok value))
  | deliver {travels : List (Option Raised)} {value : Option ν}
      (hFocus : m.focus = .deliver value) :
      Means clock m travels .value travels (give (.ok value))
  | unwind {flight : Option Raised} {travels : List (Option Raised)} {payload : Payload}
      {thrown : Thrown}
      (hFocus : m.focus = .unwind payload) (throws : payload.Throws flight thrown) :
      Means clock m (flight :: travels) .unwinding (none :: travels)
        (give (.error thrown))
  | offer {travels : List (Option Raised)} {region : Protected ν}
      {exception : Exception}
      (hFocus : m.focus = .offer region exception) :
      Means clock m travels .value travels
        ((Clause.offer (runAt clock) region.clauses 0 exception.raised).meet
        (afterClauses region.mode exception.raised))
  | leave {travels : List (Option Raised)} {region : Protected ν}
      {outcome : Except Exception (Option ν)}
      (hFocus : m.focus = .leave region outcome) :
      Means clock m travels .value travels
        (leaveRegion region.mode (outcome.mapError Exception.raised))
  | forward {travels : List (Option Raised)} {exception : Exception}
      (hFocus : m.focus = .forward exception) :
      Means clock m travels .unwinding travels
        (give (.error (.raised exception.raised)))
  | drop {travels : List (Option Raised)} {handle : Handle ν}
      (hFocus : m.focus = .drop handle) (isMarked : handle.IsMarked) :
      Means clock m travels .drop travels
        (Plain.drop (runAt clock) m.dropsByUnwinding handle.held)
  | leaveScope {travels : List (Option Raised)} {scope : Leaving ν}
      (hFocus : m.focus = .leaveScope scope) :
      Means clock m travels .drop travels
        (guardBodies (runAt clock) scope.unwinding scope.bodies)
  | write {travels : List (Option Raised)} {raising : Raising} {pieces : List (Piece ν)}
      (hFocus : m.focus = .write raising pieces) :
      Means clock m travels .statement travels
        ((Piece.write (runAt clock) pieces raising.buffer).meet
        (Plain.finishRaise raising.kind raising.site))

/-- What a machine comes to in the end, if it goes on as plain code does.

The final outcome is fixed at the start of the run and never changes: each step shows
that the machine still comes to it. -/
inductive Reads (clock : Nat) (m : Machine ν)
    (final : Except Thrown (Option ν) × Store ν) : Prop
  | runs {point : Point} {travels : List (Option Raised)}
    {code : Plain ν (point.Answer ν)}
    {follows : Except Thrown (point.Answer ν) → Plain ν (Option ν)}
        (means : m.Means clock m.travels point travels code)
      (waits : Waits m.pend point clock travels m.control follows)
      (comes : code.meet follows m.reading = final)
  | returned {value : Option ν} {shutdown : Option (Except Error Unit)}
      (hFocus : m.focus = .stopped (.returned value shutdown))
      (outcome : final.1 = .ok value) (log : final.2.log = m.sights)
  | unwound {payload : Payload} {thrown : Thrown}
      (hFocus : m.focus = .stopped (.unwound payload))
      (isPayload : thrown.payload? = some payload) (outcome : final.1 = .error thrown)
      (log : final.2.log = m.sights)

end Machine

/-! ## What waiting code looks at -/

section

variable {pend other : Nat → Option Site} {point : Point} {clock : Nat}
    {travels : List (Option Raised)}
  {control : List (Resumption ν)}
  {follows : Except Thrown (point.Answer ν) → Plain ν (Option ν)}

/-- Waiting code looks at what the bodies have to report in which it waits, but for the
innermost one. -/
theorem Waits.congr (h : Waits pend point clock travels control follows)
    (hSame : ∀ id ∈ (bodies control).tail, other id = pend id) :
    Waits other point clock travels control follows := by
  induction h with
  | bare => exact .bare
  | thread => exact .thread
  | statement below marked ih => exact .statement (ih hSame) marked
  | block below marked ih => exact .block (ih hSame) marked
  | @body clock travels control region follows below ih =>
      have hBelow : ∀ id ∈ bodies control, other id = pend id := hSame
      have hHead : (bodies control).head?.bind pend =
          (bodies control).head?.bind other := by
        cases hBodies : bodies control with
        | nil => rfl
        | cons id outer =>
            rw [hBodies] at hBelow
            exact (hBelow id List.mem_cons_self).symm
      rw [hHead]
      exact .body (ih fun id hMem => hBelow id (List.mem_of_mem_tail hMem))
  | handler below ih => exact .handler (ih hSame)
  | attempt below ih => exact .attempt (ih hSame)
  | resuming below ih => exact .resuming (ih hSame)
  | loop below ih => exact .loop (ih hSame)
  | message below ih => exact .message (ih hSame)
  | guarding below ih => exact .guarding (ih hSame)
  | running below marked ih => exact .running (ih hSame) marked
  | closing below marked bound ih => exact .closing (ih hSame) marked bound
  | releasing below ih => exact .releasing (ih hSame)
  | unwinding below marked bound throws ih =>
      exact .unwinding (ih hSame) marked bound throws
  | passing below marked bound ih => exact .passing (ih hSame) marked bound
  | arriving on ih => exact .arriving (ih hSame)

/-- A piece of waiting code with other handles, at most as many. -/
inductive Shrinks : Resumption ν → Resumption ν → Prop
  | same (waiting : Resumption ν) : Shrinks waiting waiting
  | block {word : String} {rest : List (Stmt ν)}
      {before after : List (String × Handle ν)} {value : Option ν}
      (fewer : after.length ≤ before.length)
      (marked : AllMarked before → AllMarked after) :
      Shrinks (.block word rest before value) (.block word rest after value)

private theorem shrinks_refl (control : List (Resumption ν)) :
    List.Forall₂ Shrinks control control :=
  List.forall₂_same.2 fun waiting _ => .same waiting

/-- A block that loses handles is no less a block: the bodies that wait stay the
same. -/
theorem bodies_shrinks {after : List (Resumption ν)}
    (h : List.Forall₂ Shrinks control after) : bodies after = bodies control := by
  refine congrArg (List.filterMap Stage.body?) (stagesOf_congr ?_)
  induction h with
  | nil => rfl
  | cons hTop _ ih =>
      rw [List.map_cons, List.map_cons, ih]
      cases hTop <;> rfl

/-- Waiting code stands for the same if some of its handles are given up. -/
theorem Waits.shrink {after : List (Resumption ν)}
    (h : Waits pend point clock travels control follows)
    (hShrinks : List.Forall₂ Shrinks control after) :
    Waits pend point clock travels after follows := by
  induction h generalizing after with
  | bare =>
      cases hShrinks
      exact .bare
  | thread =>
      obtain _ | ⟨⟨⟩, ⟨⟩⟩ := hShrinks
      exact .thread
  | statement below marked ih =>
      obtain _ | ⟨⟨⟩ | ⟨_, kept⟩, hBelow⟩ := hShrinks
      · exact .statement (ih hBelow) marked
      · exact .statement (ih hBelow) (kept marked)
  | block below marked ih =>
      obtain _ | ⟨⟨⟩ | ⟨_, kept⟩, hBelow⟩ := hShrinks
      · exact .block (ih hBelow) marked
      · exact .block (ih hBelow) (kept marked)
  | body below ih =>
      obtain _ | ⟨⟨⟩, hBelow⟩ := hShrinks
      rw [← bodies_shrinks hBelow]
      exact .body (ih hBelow)
  | handler below ih =>
      obtain _ | ⟨⟨⟩, hBelow⟩ := hShrinks
      exact .handler (ih hBelow)
  | attempt below ih =>
      obtain _ | ⟨⟨⟩, hBelow⟩ := hShrinks
      exact .attempt (ih hBelow)
  | resuming below ih =>
      obtain _ | ⟨⟨⟩, hBelow⟩ := hShrinks
      exact .resuming (ih hBelow)
  | loop below ih =>
      obtain _ | ⟨⟨⟩, hBelow⟩ := hShrinks
      exact .loop (ih hBelow)
  | message below ih =>
      obtain _ | ⟨⟨⟩, hBelow⟩ := hShrinks
      exact .message (ih hBelow)
  | guarding below ih =>
      obtain _ | ⟨⟨⟩, hBelow⟩ := hShrinks
      exact .guarding (ih hBelow)
  | running below marked ih =>
      obtain _ | ⟨⟨⟩ | ⟨_, kept⟩, hBelow⟩ := hShrinks
      · exact .running (ih hBelow) marked
      · exact .running (ih hBelow) (kept marked)
  | closing below marked bound ih =>
      obtain _ | ⟨⟨⟩ | ⟨fewer, kept⟩, hBelow⟩ := hShrinks
      · exact .closing (ih hBelow) marked bound
      · exact .closing (ih hBelow) (kept marked) (Nat.le_trans fewer bound)
  | releasing below ih =>
      obtain _ | ⟨⟨⟩, hBelow⟩ := hShrinks
      exact .releasing (ih hBelow)
  | unwinding below marked bound throws ih =>
      obtain _ | ⟨⟨⟩, _ | ⟨⟨⟩ | ⟨fewer, kept⟩, hBelow⟩⟩ := hShrinks
      · exact .unwinding (ih hBelow) marked bound throws
      · exact .unwinding (ih hBelow) (kept marked) (Nat.le_trans fewer bound) throws
  | passing below marked bound ih =>
      obtain _ | ⟨⟨⟩ | ⟨fewer, kept⟩, hBelow⟩ := hShrinks
      · exact .passing (ih hBelow) marked bound
      · exact .passing (ih hBelow) (kept marked) (Nat.le_trans fewer bound)
  | arriving on ih => exact .arriving (ih hShrinks)

/-- The handles that waiting code holds are marked. -/
theorem Waits.allMarked (h : Waits pend point clock travels control follows) :
    ∀ word rest handles value, .block word rest handles value ∈ control →
      AllMarked handles := by
  intro word rest handles value hMem
  induction h with
  | bare => cases hMem
  | thread => simp at hMem
  | arriving on ih => exact ih hMem
  | statement below marked ih | block below marked ih | running below marked ih
  | closing below marked bound ih
  | passing below marked bound ih =>
      rcases List.mem_cons.1 hMem with hTop | hBelow
      · cases hTop
        exact marked
      · exact ih hBelow
  | body below ih | handler below ih | attempt below ih | resuming below ih
  | loop below ih | message below ih | guarding below ih
  | releasing below ih =>
      rcases List.mem_cons.1 hMem with hTop | hBelow
      · cases hTop
      · exact ih hBelow
  | unwinding below marked bound throws ih =>
      obtain hTop | hBlock | hBelow : _ = _ ∨ _ = _ ∨ _ := by
        simpa only [List.mem_cons] using hMem
      · cases hTop
      · cases hBlock
        exact marked
      · exact ih hBelow

end

/-! ## Points of waiting code -/

section

variable {pend : Nat → Option Site} {clock : Nat} {travels : List (Option Raised)}
    {control : List (Resumption ν)}

/-- Where a value is waited for, nothing is on its way. -/
theorem Waits.lands {follows : Except Thrown (Option ν) → Plain ν (Option ν)}
    (h : Waits pend .value clock travels control follows) :
    ∃ outer, travels = none :: outer := by
  cases h <;> exact ⟨_, rfl⟩

/-- Nor is anything where a handle is dropped that no unwinding drops. -/
theorem Waits.settled {follows : Except Thrown Unit → Plain ν (Option ν)}
    (h : Waits pend .drop clock travels control follows)
    (hSettled : ∀ payload below, control ≠ .unwinding payload :: below) :
    ∃ outer, travels = none :: outer := by
  cases h with
  | unwinding below marked bound throws => exact absurd rfl (hSettled _ _)
  | _ => exact ⟨_, rfl⟩

/-- Once a raise has lost its record, whatever waits for it does not mind. -/
theorem Waits.landed {flight : Option Raised}
    {follows : Except Thrown Unit → Plain ν (Option ν)}
    (h : Waits pend .drop clock [flight] control follows) :
    Waits pend .drop clock [none] control follows := by
  cases h with
  | running below marked => exact .running below marked
  | closing below marked bound => exact .closing below marked bound
  | releasing below => exact .releasing below
  | unwinding below marked bound throws =>
      exact .unwinding below marked bound throws.landed

/-- Nor is anything that an unwinding could meet. -/
theorem Waits.clears {follows : Except Thrown Empty → Plain ν (Option ν)}
    (h : Waits pend .unwinding clock travels control follows) :
    ∃ outer, travels = none :: outer := by
  cases h with
  | passing below marked bound => exact ⟨_, rfl⟩
  | arriving on => exact on.lands

/-- The block that waits for a statement can get another handle. -/
theorem Waits.owns {follows : Except Thrown (Option (Option ν)) → Plain ν (Option ν)}
    (h : Waits pend .statement clock travels control follows) :
    ∃ word rest handles value below, control = .block word rest handles value :: below ∧
      ∀ (name : String) (handle : Handle ν), handle.IsMarked →
        Waits pend .statement clock travels
          (.block word rest ((name, handle) :: handles) value :: below) follows := by
  cases h with
  | statement below marked =>
      exact ⟨_, _, _, _, _, rfl,
        fun name handle isMarked =>
        .statement below (List.forall_mem_cons.2 ⟨isMarked, marked⟩)⟩

/-- What waits for a statement can wait for the value of a block that is the
statement. -/
theorem Waits.valued {follows : Except Thrown (Option (Option ν)) → Plain ν (Option ν)}
    (h : Waits pend .statement clock travels control follows) :
    Waits pend .value clock travels control fun outcome =>
      follows (outcome.map some) := by
  cases h with
  | statement below marked => exact .block below marked

/-- What waits for a statement can be reached by an unwinding. -/
theorem Waits.reached {follows : Except Thrown (Option (Option ν)) → Plain ν (Option ν)}
    (h : Waits pend .statement clock travels control follows) :
    Waits pend .unwinding clock travels control
      fun outcome => follows ((outcome.map Empty.elim).map some) :=
  .arriving h.valued

end

/-! ## What is seen -/

private theorem Waits.grows {pend : Nat → Option Site} {point : Point} {clock : Nat}
    {travels : List (Option Raised)} {control : List (Resumption ν)}
    {follows : Except Thrown (point.Answer ν) → Plain ν (Option ν)}
    (h : Waits pend point clock travels control follows)
    (outcome : Except Thrown (point.Answer ν)) : (follows outcome).Grows := by
  have hRuns : ∀ (clock : Nat) (body : List (Stmt ν)), (runAt clock body).Grows :=
    grows_runAt
  have hBlock (clock : Nat) (body : List (Stmt ν)) :
      (Plain.block (runAt clock) (Stmt.evals (runAt clock) body none)).Grows :=
    grows_block (hRuns clock) (Stmt.grows_all (hRuns clock) body none)
  have hStatement (clock : Nat) (word : String) (rest : List (Stmt ν))
    (value : Option ν)
    (outcome : Except Thrown (Option (Option ν))) :
        (afterStatement (runAt clock) word rest value outcome).Grows := by
    cases outcome with
    | ok set =>
        exact grows_andThen (grows_see _) fun _ => Stmt.grows_all (hRuns clock) rest _
    | error thrown => exact grows_give _
  induction h with
  | bare => exact grows_give _
  | thread => exact grows_give _
  | statement below marked ih =>
      exact grows_meet (grows_meet (hStatement _ _ _ _ _) (grows_leaveBlock (hRuns _)))
        ih
  | block below marked ih =>
      exact grows_meet (grows_meet (hStatement _ _ _ _ _) (grows_leaveBlock (hRuns _)))
        ih
  | body below ih =>
      exact grows_meet (grows_afterBody (Clause.grows (hRuns _) _ 0) _ _ _) ih
  | handler below ih => exact grows_meet (grows_afterClauses _ _ _) ih
  | @attempt _ _ _ resume _ below ih =>
      refine grows_meet (grows_afterAttempt (fun between hSome => ?_) _) ih
      obtain ⟨body, -, rfl⟩ := Option.map_eq_some_iff.1 hSome
      exact hBlock _ body
  | resuming below ih => exact ih _
  | loop below ih =>
      exact grows_meet
        (grows_andThen (grows_give _) fun _ => grows_repeats (hBlock _ _) _) ih
  | message below ih =>
      exact grows_meet
        (grows_meet (grows_andThen (grows_give _) fun _ => Piece.grows (hRuns _) _ _)
        (grows_finishRaise _ _)) ih
  | guarding below ih =>
      refine grows_meet (grows_andThen ?_ fun _ => grows_guardBodies (hRuns _) _ _) ih
      cases outcome <;> exact grows_give _
  | running below marked ih =>
      exact grows_meet
        (grows_meet (grows_andThen (grows_give _) fun _ => Stmt.grows_all (hRuns _) _ _)
        (grows_leaveBlock (hRuns _))) ih
  | closing below marked bound ih =>
      exact grows_meet
        (grows_andThen
        (grows_andThen (grows_give _) fun _ => grows_dropHandles (hRuns _) _ _)
        fun _ => grows_give _) ih
  | releasing below ih => exact ih _
  | unwinding below marked bound throws ih =>
      exact grows_meet
        (grows_andThen
        (grows_andThen (grows_give _) fun _ => grows_dropHandles (hRuns _) _ _)
        fun _ => grows_give _) ih
  | passing below marked bound ih =>
      exact grows_meet (grows_andThen (grows_dropHandles (hRuns _) _ _)
        fun _ => grows_give _) ih
  | arriving on ih => exact ih _

/-- A machine that has stopped stands for nothing that could run. -/
theorem Machine.Means.running {m : Machine ν} {clock : Nat}
    {sent travels : List (Option Raised)} {point : Point}
    {code : Plain ν (point.Answer ν)} (h : m.Means clock sent point travels code) :
    ¬ m.IsStopped := by
  rintro ⟨how, hStops⟩
  cases h <;> simp_all

private theorem Machine.Means.grows {m : Machine ν} {clock : Nat}
    {sent travels : List (Option Raised)} {point : Point}
    {code : Plain ν (point.Answer ν)} (h : m.Means clock sent point travels code) :
    code.Grows := by
  have hRuns : ∀ (clock : Nat) (body : List (Stmt ν)), (runAt clock body).Grows :=
    grows_runAt
  cases h with
  | exec hFocus => exact Stmt.grows (hRuns clock) _
  | protect hFocus =>
      exact grows_nested (fun _ => grows_region (Clause.grows (hRuns clock) _ 0) _ _) _
        (grows_block (hRuns clock) (Stmt.grows_all (hRuns clock) _ none))
  | offer hFocus =>
      exact grows_meet (Clause.grows (hRuns clock) _ 0 _) (grows_afterClauses _ _)
  | leave hFocus => exact grows_leaveRegion _ _
  | drop hFocus isMarked => exact grows_drop (hRuns clock) _ _
  | leaveScope hFocus => exact grows_guardBodies (hRuns clock) _ _
  | write hFocus =>
      exact grows_meet (Piece.grows (hRuns clock) _ _) (grows_finishRaise _ _)
  | _ => exact grows_give _

/-- What a machine has shown, it shows in the end. -/
theorem Machine.Reads.shown {m : Machine ν} {clock : Nat}
    {final : Except Thrown (Option ν) × Store ν} (h : m.Reads clock final) :
    m.sights <:+ final.2.log := by
  cases h with
  | runs means waits comes => exact comes ▸ grows_meet means.grows waits.grows m.reading
  | returned hFocus outcome log => exact log ▸ List.suffix_refl _
  | unwound hFocus isPayload outcome log => exact log ▸ List.suffix_refl _

/-! ## Handles of waiting code -/

/-- Waiting code holds a handle. -/
def HoldsHandle (control : List (Resumption ν)) (handle : Handle ν) : Prop :=
  ∃ word rest handles value name, .block word rest handles value ∈ control ∧
    (name, handle) ∈ handles

section

variable {name : String} {handle : Handle ν} {control left : List (Resumption ν)}

private theorem HoldsHandle.below {waiting : Resumption ν}
    (h : HoldsHandle control handle) : HoldsHandle (waiting :: control) handle := by
  obtain ⟨word, rest, handles, value, name, hMem, hIn⟩ := h
  exact ⟨word, rest, handles, value, name, List.mem_cons_of_mem _ hMem, hIn⟩

/-- Waiting code holds no scope in which something is registered without a mark. -/
theorem Waits.marked {pend : Nat → Option Site} {point : Point} {clock : Nat}
    {travels : List (Option Raised)}
    {follows : Except Thrown (point.Answer ν) → Plain ν (Option ν)}
    (h : Waits pend point clock travels control follows)
    (hHolds : HoldsHandle control handle) : handle.IsMarked := by
  obtain ⟨word, rest, handles, value, name, hMem, hIn⟩ := hHolds
  exact h.allMarked word rest handles value hMem _ hIn

private theorem split?_fewer {handles others : List (String × Handle ν)}
    (h : Handle.split? name handles = some (handle, others)) :
    others.length ≤ handles.length ∧ others ⊆ handles ∧ (name, handle) ∈ handles := by
  induction handles generalizing others with
  | nil => cases h
  | cons entry older ih =>
      obtain ⟨other, old⟩ := entry
      unfold Handle.split? at h
      split at h
      · next hName =>
          cases h
          exact ⟨Nat.le_succ _, List.subset_cons_self _ _, hName ▸ List.mem_cons_self⟩
      · obtain ⟨⟨found, rest⟩, hSplit, hSame⟩ := Option.map_eq_some_iff.1 h
        cases hSame
        obtain ⟨hFewer, hOld, hFound⟩ := ih hSplit
        exact ⟨Nat.succ_le_succ hFewer, List.cons_subset_cons _ hOld,
          List.mem_cons_of_mem _ hFound⟩

/-- A handle that is given up leaves its block. -/
theorem shrinks_of_take? (h : Handle.take? name control = some (handle, left)) :
    List.Forall₂ Shrinks control left ∧ HoldsHandle control handle := by
  induction control generalizing left with
  | nil => cases h
  | cons waiting below ih =>
      have passes
        (h : (Handle.take? name below).map
          (fun found => (found.1, waiting :: found.2)) = some (handle, left)) :
          List.Forall₂ Shrinks (waiting :: below) left ∧
            HoldsHandle (waiting :: below) handle := by
        obtain ⟨⟨found, rest⟩, hTake, hSame⟩ := Option.map_eq_some_iff.1 h
        cases hSame
        obtain ⟨hShrinks, hHolds⟩ := ih hTake
        exact ⟨.cons (.same _) hShrinks, hHolds.below⟩
      cases waiting with
      | block word rest handles value =>
          unfold Handle.take? at h
          split at h
          · next hSplit =>
              cases h
              obtain ⟨hFewer, hOld, hFound⟩ := split?_fewer hSplit
              exact ⟨.cons
                (.block hFewer fun marked entry hMem => marked entry (hOld hMem))
                (shrinks_refl below), word, rest, handles, value, name,
                List.mem_cons_self, hFound⟩
          · exact passes h
      | _ => exact passes h

private theorem replace_marked (isMarked : handle.IsMarked) (name : String)
    (handles : List (String × Handle ν)) :
    (Handle.replace name handle handles).length = handles.length ∧
      (AllMarked handles → AllMarked (Handle.replace name handle handles)) := by
  induction handles with
  | nil => exact ⟨rfl, id⟩
  | cons entry older ih =>
      obtain ⟨other, old⟩ := entry
      unfold Handle.replace
      split
      · exact ⟨rfl,
          fun marked => List.forall_mem_cons.2
          ⟨isMarked, (List.forall_mem_cons.1 marked).2⟩⟩
      · refine ⟨congrArg (· + 1) ih.1, fun marked => ?_⟩
        obtain ⟨hOld, hOlder⟩ := List.forall_mem_cons.1 marked
        exact List.forall_mem_cons.2 ⟨hOld, ih.2 hOlder⟩

/-- A handle that takes the place of another one leaves the blocks as they are. -/
theorem shrinks_put (isMarked : handle.IsMarked) (name : String)
    (control : List (Resumption ν)) :
    List.Forall₂ Shrinks control (Handle.put name handle control) := by
  induction control with
  | nil => exact .nil
  | cons waiting below ih =>
      cases waiting with
      | block word rest handles value =>
          obtain ⟨hLength, hMarked⟩ := replace_marked isMarked name handles
          unfold Handle.put
          split
          · exact .cons (.block (Nat.le_of_eq hLength) hMarked) (shrinks_refl below)
          · exact .cons (.same _) ih
      | _ => exact .cons (.same _) ih

end

end Unwinding
