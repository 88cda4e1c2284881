import Unwinding.Proofs.Effects

/-!
# Contexts of different sizes

Two contexts that differ only in the capacities of their stacks and in the nodes these
keep for later look the same to a thread: `Context.bare` is what is left of a context
without them, and `Context.Beside` says of two contexts that the rest is equal. A step
takes two such contexts to two such contexts and answers the same in both, unless it is
refused a place on a stack that is larger in the other one (`Abreast`).

Steps that push entries onto stacks are told from those that do not: the latter are
never refused anything, although `releaseRecords` puts the record that it keeps back
onto its stack.

## Main results

* `abreast_enter`, `abreast_raise`, … — a step on two contexts that differ in their
  sizes, one law each.
* `room_of_abreast` — a step that pushes nothing is never refused a place.
-/

namespace Unwinding

open Context

/-- The capacity of a stack. -/
def Limits.get (limits : Limits) : StackKind → Nat
  | .regions => limits.regions
  | .dispatch => limits.dispatch
  | .guards => limits.guards
  | .frames => limits.frames
  | .exceptions => limits.exceptions

/-! ## One stack -/

section

variable {α : Type} {kind : StackKind} {size : Nat} {stack : Stack α}

namespace Stack

/-- What is left of a stack without its capacity and the nodes it keeps. -/
def bare (stack : Stack α) : Stack α :=
  { stack with limit := 0, spare := [] }

/-- A stack of a thread has its name and its capacity, and no more entries than that. -/
structure Sized (kind : StackKind) (size : Nat) (stack : Stack α) : Prop where
  name : stack.name = kind.name
  limit : stack.limit = size
  within : stack.depth ≤ size

private theorem depth_of_live {a b : Stack α} (h : a.live = b.live) :
    a.depth = b.depth := by
  rw [a.depth_eq, b.depth_eq, h]

/-- One entry more is one deeper. -/
theorem depth_of_cons {a b : Stack α} {entry : α} (h : a.live = entry :: b.live) :
    a.depth = b.depth + 1 := by
  rw [a.depth_eq, b.depth_eq, h, List.length_cons]

/-- What becomes of an entry that is to be put onto a stack. -/
inductive Takes (kind : StackKind) (size : Nat) (stack : Stack α) (entry : α) :
    Except Error (Stack α) → Prop
  | taken {after : Stack α} (isSized : after.Sized kind size)
    (live : after.live = entry :: stack.live) :
      Takes kind size stack entry (.ok after)
  | refused (isFull : stack.depth = size) :
      Takes kind size stack entry (.error (.capacityExceeded kind.name size))

/-- What becomes of a stack whose top entry is to be taken off. -/
inductive Gives (kind : StackKind) (size : Nat) (stack : Stack α) :
    Except Error (α × Stack α) → Prop
  | given {entry : α} {after : Stack α} (isSized : after.Sized kind size)
    (live : stack.live = entry :: after.live) :
      Gives kind size stack (.ok (entry, after))
  | refused (isEmpty : stack.live = []) :
      Gives kind size stack (.error (.stackUnderflow kind.name))

namespace Sized

private theorem checked (h : stack.Sized kind size) :
    stack.depth < size ∧ stack.checkCapacity = .ok () ∨
      stack.depth = size ∧ stack.checkCapacity =
        .error (.capacityExceeded kind.name size) := by
  have hWithin := h.within
  unfold checkCapacity
  rw [h.name, h.limit]
  split
  · exact .inr ⟨by omega, rfl⟩
  · exact .inl ⟨by omega, rfl⟩

private theorem place (h : stack.Sized kind size) (entry : α) :
    Takes kind size stack entry (stack.place entry) := by
  unfold Stack.place Stack.refill
  obtain ⟨hRoom, hChecked⟩ | ⟨hFull, hChecked⟩ := h.checked <;> rw [hChecked]
  · exact .taken ⟨h.name, h.limit, hRoom⟩ rfl
  · exact .refused hFull

/-- An entry that is pushed takes room, whether or not a spare node lies there. -/
theorem push (h : stack.Sized kind size) (entry : α) :
    Takes kind size stack entry (stack.push entry) := by
  unfold Stack.push
  obtain ⟨hRoom, hChecked⟩ | ⟨hFull, hChecked⟩ := h.checked <;> rw [hChecked]
  · exact .taken ⟨h.name, h.limit, hRoom⟩ rfl
  · exact .refused hFull

private theorem pop (h : stack.Sized kind size) : Gives kind size stack stack.pop := by
  unfold Stack.pop
  split
  · next hLive =>
      exact .given ⟨h.name, h.limit, Nat.le_trans (Nat.sub_le _ _) h.within⟩ hLive
  · next hLive => exact h.name ▸ .refused hLive

private theorem take (h : stack.Sized kind size) :
    Gives kind size stack stack.take := by
  unfold Stack.take
  split
  · next hLive =>
      exact .given ⟨h.name, h.limit, Nat.le_trans (Nat.sub_le _ _) h.within⟩ hLive
  · next hLive => exact h.name ▸ .refused hLive

private theorem truncate (h : stack.Sized kind size) (depth : Nat) :
    (stack.truncate depth).Sized kind size :=
  ⟨h.name, h.limit, Nat.le_trans (Nat.min_le_right _ _) h.within⟩

/-- A record that moves down finds a place, because its own has been given up before. -/
theorem keepOnly {records : Records} {depth index : Nat} (h : records.Sized kind size)
    (hDepth : depth ≤ index) (hIndex : index < records.depth) :
    ∃ kept, records.keepOnly depth index = .ok kept ∧ kept.Sized kind size := by
  have hCut : (records.truncate (index + 1)).depth = index + 1 := Nat.min_eq_left hIndex
  have hTake := (h.truncate (index + 1)).take
  unfold Records.keepOnly
  rw [if_neg (by omega)]
  generalize (records.truncate (index + 1)).take = outcome at hTake
  cases hTake with
  | refused isEmpty =>
      rw [depth_eq, isEmpty] at hCut
      cases hCut
  | @given record rest isSized live =>
      have hRest := depth_of_cons live
      have hRoom : (rest.truncate depth).depth < size := by
        have hWithin := h.within
        exact Nat.lt_of_le_of_lt (Nat.min_le_left _ _) (by omega)
      have hPush := (isSized.truncate depth).push record
      change ∃ kept, (rest.truncate depth).push record = .ok kept ∧ kept.Sized kind size
      generalize (rest.truncate depth).push record = pushed at hPush
      cases hPush with
      | taken isSized _ => exact ⟨_, rfl, isSized⟩
      | refused isFull => exact absurd isFull (Nat.ne_of_lt hRoom)

end Sized

end Stack

/-- An operation on two stacks that differ in their sizes, each with so many entries: it
does the same to both, or one of them is full and has no place for an entry that the
other one takes. -/
inductive Matched (kind : StackKind) (few many : Nat) (pushes : Prop) (depth : Nat) :
    Except Error (Stack α) → Except Error (Stack α) → Prop
  | keeps {a b : Stack α} (left : a.Sized kind few) (right : b.Sized kind many)
    (live : a.live = b.live) :
      Matched kind few many pushes depth (.ok a) (.ok b)
  | fails {error : Error} (hasRoom : ¬ NoRoom error) :
      Matched kind few many pushes depth (.error error) (.error error)
  | refused (isPush : pushes) (isFull : depth = few) (isEqual : few = many) :
      Matched kind few many pushes depth (.error (.capacityExceeded kind.name few))
        (.error (.capacityExceeded kind.name many))
  | refusedLeft {b : Stack α} (isPush : pushes) (isFull : depth = few)
      (isSmaller : few < many) (isPast : few < b.depth) :
      Matched kind few many pushes depth (.error (.capacityExceeded kind.name few))
        (.ok b)
  | refusedRight {a : Stack α} (isPush : pushes) (isFull : depth = many)
      (isSmaller : many < few) (isPast : many < a.depth) :
      Matched kind few many pushes depth (.ok a)
        (.error (.capacityExceeded kind.name many))

private theorem NoRoom.not_underflow (stack : String) :
    ¬ NoRoom (.stackUnderflow stack) :=
  fun h => h.not_contradicted (.inr ⟨stack, rfl⟩)

private theorem NoRoom.not_corrupted (cause : Corruption) :
    ¬ NoRoom (.corrupted cause) :=
  fun h => h.not_contradicted (.inl ⟨cause, rfl⟩)

variable {few many : Nat} {pushes : Prop} {a b : Stack α}

/-- An entry that is put onto both stacks. -/
theorem matched_takes {entry : α} {left right : Except Error (Stack α)}
    (hLive : a.live = b.live) (hLeft : a.Takes kind few entry left)
    (hRight : b.Takes kind many entry right) (hPush : pushes) :
    Matched kind few many pushes a.depth left right := by
  have hDepth := Stack.depth_of_live hLive
  cases hLeft with
  | taken isSized live =>
      have hTaken := isSized.within
      rw [Stack.depth_of_cons live] at hTaken
      cases hRight with
      | taken isSized' live' =>
          exact .keeps isSized isSized' (by rw [live, live', hLive])
      | refused isFull =>
          exact .refusedRight hPush (hDepth.trans isFull) (by omega)
            (by rw [Stack.depth_of_cons live]; omega)
  | refused isFull =>
      cases hRight with
      | taken isSized' live' =>
          have hTaken := isSized'.within
          rw [Stack.depth_of_cons live'] at hTaken
          exact .refusedLeft hPush isFull (by omega)
            (by rw [Stack.depth_of_cons live']; omega)
      | refused isFull' => exact .refused hPush isFull (by omega)

private theorem matched_place (hLeft : a.Sized kind few) (hRight : b.Sized kind many)
    (hLive : a.live = b.live) (hPush : pushes) (entry : α) :
    Matched kind few many pushes a.depth (a.place entry) (b.place entry) :=
  matched_takes hLive (hLeft.place entry) (hRight.place entry) hPush

private theorem matched_push (hLeft : a.Sized kind few) (hRight : b.Sized kind many)
    (hLive : a.live = b.live) (hPush : pushes) (entry : α) :
    Matched kind few many pushes a.depth (a.push entry) (b.push entry) :=
  matched_takes hLive (hLeft.push entry) (hRight.push entry) hPush

private theorem matched_truncate (hLeft : a.Sized kind few) (hRight : b.Sized kind many)
    (hLive : a.live = b.live) (depth : Nat) :
    Matched kind few many pushes a.depth (.ok (a.truncate depth))
      (.ok (b.truncate depth)) := by
  refine .keeps (hLeft.truncate depth) (hRight.truncate depth) ?_
  rw [Stack.live_truncate, Stack.live_truncate, Stack.bottom, Stack.bottom, hLive,
    Stack.depth_of_live hLive]

private theorem matched_pop (hLeft : a.Sized kind few) (hRight : b.Sized kind many)
    (hLive : a.live = b.live) :
    Matched kind few many pushes a.depth (a.pop.map Prod.snd) (b.pop.map Prod.snd) := by
  have hPopLeft := hLeft.pop
  have hPopRight := hRight.pop
  generalize a.pop = left at hPopLeft
  generalize b.pop = right at hPopRight
  cases hPopLeft with
  | given isSized live =>
      cases hPopRight with
      | given isSized' live' =>
          exact .keeps isSized isSized'
            (List.cons.inj (live.symm.trans (hLive.trans live'))).2
      | refused isEmpty => cases live.symm.trans (hLive.trans isEmpty)
  | refused isEmpty =>
      cases hPopRight with
      | given isSized live => cases isEmpty.symm.trans (hLive.trans live)
      | refused _ => exact .fails (NoRoom.not_underflow _)

/-- To keep the newest record only comes out alike on both stacks, and never for want of
room. -/
theorem matched_keepOnly {a b : Records} (hLeft : a.Sized kind few)
    (hRight : b.Sized kind many) (hLive : a.live = b.live) (depth index : Nat) :
    Matched kind few many pushes a.depth (a.keepOnly depth index)
      (b.keepOnly depth index) := by
  have hDepth := Stack.depth_of_live hLive
  by_cases hInside : depth ≤ index ∧ index < a.depth
  · obtain ⟨kept, hKept, hSized⟩ := hLeft.keepOnly hInside.1 hInside.2
    obtain ⟨kept', hKept', hSized'⟩ := hRight.keepOnly hInside.1 (hDepth ▸ hInside.2)
    have hList : a.toList = b.toList := congrArg List.reverse hLive
    rw [hKept, hKept']
    refine .keeps hSized hSized' (List.reverse_inj.1 ?_)
    exact (toList_keepOnly hKept).2.trans (hList ▸ (toList_keepOnly hKept').2.symm)
  · unfold Records.keepOnly
    rw [← hDepth, if_pos (by omega), if_pos (by omega)]
    exact .fails (NoRoom.not_corrupted _)

end

/-! ## Contexts -/

namespace Context

/-- What is left of a context without the capacities of its stacks and the nodes that
these keep. -/
def bare (context : Context) : Context :=
  { context with
    regions := context.regions.bare
    dispatch := context.dispatch.bare
    guards := context.guards.bare
    frames := context.frames.bare
    records := context.records.bare }

/-- The stacks of a context have their names and these capacities, and no more entries
than that. -/
structure Sized (limits : Limits) (context : Context) : Prop where
  regions : context.regions.Sized .regions limits.regions
  dispatch : context.dispatch.Sized .dispatch limits.dispatch
  guards : context.guards.Sized .guards limits.guards
  frames : context.frames.Sized .frames limits.frames
  records : context.records.Sized .exceptions limits.exceptions

/-- Two contexts that differ only in the capacities of their stacks and the nodes that
these keep. -/
structure Beside (few many : Limits) (a b : Context) : Prop where
  left : a.Sized few
  right : b.Sized many
  same : a.bare = b.bare

variable {few many : Limits} {a b : Context}

/-- In a context of given sizes no stack is deeper than its limit. -/
theorem Sized.within {limits : Limits} (h : a.Sized limits) (kind : StackKind) :
    a.depths.get kind ≤ limits.get kind := by
  cases kind with
  | regions => exact h.regions.within
  | dispatch => exact h.dispatch.within
  | guards => exact h.guards.within
  | frames => exact h.frames.within
  | exceptions => exact h.records.within

/-- A new context has the sizes that it was made with. -/
theorem sized_new (config : Config) (limits : Limits) :
    (Context.new config limits).Sized limits where
  regions := ⟨rfl, rfl, Nat.zero_le _⟩
  dispatch := ⟨rfl, rfl, Nat.zero_le _⟩
  guards := ⟨rfl, rfl, Nat.zero_le _⟩
  frames := ⟨rfl, rfl, Nat.zero_le _⟩
  records := ⟨rfl, rfl, Nat.zero_le _⟩

/-- A context is beside itself. -/
theorem Sized.beside {limits : Limits} (h : a.Sized limits) :
    a.Beside limits limits a :=
  ⟨h, h, rfl⟩

namespace Beside

/-- What does not look at sizes is the same in both contexts. -/
theorem reads {α : Type} (h : a.Beside few many b) (look : Context → α)
    (hLook : ∀ context, look context.bare = look context) :
    look a = look b := by
  rw [← hLook a, h.same, hLook b]

/-- Contexts side by side are equally deep. -/
theorem depths (h : a.Beside few many b) : a.depths = b.depths :=
  h.reads Context.depths fun _ => rfl

private theorem inFlight (h : a.Beside few many b) : a.inFlight = b.inFlight :=
  h.reads Context.inFlight fun _ => rfl

/-- What does not look at sizes may change both contexts, if it leaves all entries where
they are. -/
theorem writes (h : a.Beside few many b) (change : Context → Context)
    (hBare : ∀ context, (change context).bare = (change context.bare).bare)
    (hSized : ∀ context limits, context.Sized limits → (change context).Sized limits) :
    (change a).Beside few many (change b) :=
  ⟨hSized a few h.left, hSized b many h.right, by rw [hBare a, h.same, ← hBare b]⟩

private theorem withRegions {left right : Stack Region} (h : a.Beside few many b)
    (hLeft : left.Sized .regions few.regions)
    (hRight : right.Sized .regions many.regions) (hSame : left.bare = right.bare) :
    Beside few many { a with regions := left } { b with regions := right } := by
  refine ⟨{ h.left with regions := hLeft }, { h.right with regions := hRight }, ?_⟩
  change { a.bare with regions := left.bare } = { b.bare with regions := right.bare }
  rw [h.same, hSame]

private theorem withDispatch {left right : Stack Dispatch} (h : a.Beside few many b)
    (hLeft : left.Sized .dispatch few.dispatch)
    (hRight : right.Sized .dispatch many.dispatch) (hSame : left.bare = right.bare) :
    Beside few many { a with dispatch := left } { b with dispatch := right } := by
  refine ⟨{ h.left with dispatch := hLeft }, { h.right with dispatch := hRight }, ?_⟩
  change { a.bare with dispatch := left.bare } = { b.bare with dispatch := right.bare }
  rw [h.same, hSame]

private theorem withGuards {left right : Stack ScopeMark} (h : a.Beside few many b)
    (hLeft : left.Sized .guards few.guards) (hRight : right.Sized .guards many.guards)
    (hSame : left.bare = right.bare) :
    Beside few many { a with guards := left } { b with guards := right } := by
  refine ⟨{ h.left with guards := hLeft }, { h.right with guards := hRight }, ?_⟩
  change { a.bare with guards := left.bare } = { b.bare with guards := right.bare }
  rw [h.same, hSame]

private theorem withFrames {left right : Frames} (h : a.Beside few many b)
    (hLeft : left.Sized .frames few.frames) (hRight : right.Sized .frames many.frames)
    (hSame : left.bare = right.bare) :
    Beside few many { a with frames := left } { b with frames := right } := by
  refine ⟨{ h.left with frames := hLeft }, { h.right with frames := hRight }, ?_⟩
  change { a.bare with frames := left.bare } = { b.bare with frames := right.bare }
  rw [h.same, hSame]

private theorem withRecords {left right : Records} (h : a.Beside few many b)
    (hLeft : left.Sized .exceptions few.exceptions)
    (hRight : right.Sized .exceptions many.exceptions)
    (hSame : left.bare = right.bare) :
    Beside few many { a with records := left } { b with records := right } := by
  refine ⟨{ h.left with records := hLeft }, { h.right with records := hRight }, ?_⟩
  change { a.bare with records := left.bare } = { b.bare with records := right.bare }
  rw [h.same, hSame]

end Beside

end Context

private theorem Stack.Sized.bare_eq {α : Type} {kind : StackKind} {few many : Nat}
    {a b : Stack α} (hLeft : a.Sized kind few) (hRight : b.Sized kind many)
    (hLive : a.live = b.live) : a.bare = b.bare :=
  Stack.ext (hLeft.name.trans hRight.name.symm) rfl hLive rfl

/-! ## Two outcomes -/

section

variable {α β : Type} {few many : Limits} {pushes : Prop} {a b : Context}

/-- The context that a step leaves behind, also if it fails. -/
def leftBehind : EStateM.Result Error Context α → Context
  | .ok _ context => context
  | .error _ context => context

/-- The outcomes of a step on two contexts that differ in their sizes: it answers the
same, or fails for the same reason, and the contexts still differ in their sizes only,
unless it is refused a place on a stack that is larger in the other context.

There are three cases: both sides answer, both fail alike, or the smaller side alone is
refused a place. The last can happen only where the step pushes. -/
inductive Abreast (few many : Limits) (pushes : Prop) :
    EStateM.Result Error Context α → EStateM.Result Error Context α → Prop
  | answers {answer : α} {a b : Context} (beside : a.Beside few many b) :
      Abreast few many pushes (.ok answer a) (.ok answer b)
  | fails {error : Error} {a b : Context} (hasRoom : ¬ NoRoom error)
      (beside : a.Beside few many b) :
      Abreast few many pushes (.error error a) (.error error b)
  /-- Both stacks are equally large, and full. -/
  | refused {kind : StackKind} {a b : Context} (isPush : pushes)
      (isFull : a.depths.get kind = few.get kind)
      (isEqual : few.get kind = many.get kind) (beside : a.Beside few many b) :
      Abreast few many pushes (.error (.capacityExceeded kind.name (few.get kind)) a)
        (.error (.capacityExceeded kind.name (many.get kind)) b)
  | refusedLeft {kind : StackKind} {a : Context}
      {right : EStateM.Result Error Context α} (isPush : pushes)
      (isSized : a.Sized few) (isFull : a.depths.get kind = few.get kind)
      (isSmaller : few.get kind < many.get kind)
      (isPast : few.get kind < (leftBehind right).depths.get kind) :
      Abreast few many pushes (.error (.capacityExceeded kind.name (few.get kind)) a)
        right
  | refusedRight {kind : StackKind} {b : Context}
      {left : EStateM.Result Error Context α} (isPush : pushes)
      (isSized : b.Sized many) (isFull : b.depths.get kind = many.get kind)
      (isSmaller : many.get kind < few.get kind)
      (isPast : many.get kind < (leftBehind left).depths.get kind) :
      Abreast few many pushes left
        (.error (.capacityExceeded kind.name (many.get kind)) b)

/-- A step that takes nothing off the stacks, in whichever context. -/
def Grows (step : Step α) : Prop :=
  ∀ context kind, context.depths.get kind ≤ (leftBehind (step context)).depths.get kind

/-! ## Sequences -/

/-- The same answer, on both sides. -/
theorem abreast_pure {answer : α} (h : a.Beside few many b) :
    Abreast few many pushes ((pure answer : Step α) a) ((pure answer : Step α) b) :=
      .answers h

private theorem abreast_throw {error : Error} (h : a.Beside few many b)
    (hRoom : ¬ NoRoom error) :
    Abreast few many pushes ((throw error : Step α) a) ((throw error : Step α) b) :=
      .fails hRoom h

private theorem abreast_fail {cause : Corruption} (h : a.Beside few many b) :
    Abreast few many pushes ((fail cause : Step α) a) ((fail cause : Step α) b) :=
      .fails (NoRoom.not_corrupted cause) h

/-- What comes second goes on with contexts that differ in their sizes only. If what
comes first was refused on one side, then what comes second must not take off again what
the other side has put onto its stack. -/
theorem abreast_bind {early : Prop} {first other : Step β} {rest : β → Step α}
    (hFirst : Abreast few many early (first a) (other b))
    (hEarly : early → pushes ∧ ∀ answer, Grows (rest answer))
    (hRest : ∀ answer a b, a.Beside few many b →
      Abreast few many pushes (rest answer a) (rest answer b)) :
    Abreast few many pushes ((first >>= rest) a) ((other >>= rest) b) := by
  change Abreast few many pushes (EStateM.bind first rest a) (EStateM.bind other rest b)
  unfold EStateM.bind
  generalize first a = left at hFirst
  generalize other b = right at hFirst
  cases hFirst with
  | answers beside => exact hRest _ _ _ beside
  | fails hasRoom beside => exact .fails hasRoom beside
  | refused isPush isFull isEqual beside =>
      exact .refused (hEarly isPush).1 isFull isEqual beside
  | refusedLeft isPush isSized isFull isSmaller isPast =>
      refine .refusedLeft (hEarly isPush).1 isSized isFull isSmaller ?_
      cases right with
      | ok answer context =>
          exact Nat.lt_of_lt_of_le isPast ((hEarly isPush).2 answer context _)
      | error error context => exact isPast
  | refusedRight isPush isSized isFull isSmaller isPast =>
      refine .refusedRight (hEarly isPush).1 isSized isFull isSmaller ?_
      cases left with
      | ok answer context =>
          exact Nat.lt_of_lt_of_le isPast ((hEarly isPush).2 answer context _)
      | error error context => exact isPast

/-- What comes first pushes nothing. -/
theorem abreast_then {first : Step β} {rest : β → Step α}
    (hFirst : Abreast few many False (first a) (first b))
    (hRest : ∀ answer a b, a.Beside few many b →
      Abreast few many pushes (rest answer a) (rest answer b)) :
    Abreast few many pushes ((first >>= rest) a) ((first >>= rest) b) :=
  abreast_bind hFirst (fun hFalse => hFalse.elim) hRest

/-- A step that looks at its context may be followed on both sides at once. -/
theorem abreast_get {rest : Context → Step α}
    (h : Abreast few many pushes (rest a a) (rest b b)) :
    Abreast few many pushes (((get : Step Context) >>= rest) a)
      (((get : Step Context) >>= rest) b) := h

private theorem abreast_modify {change : Context → Context} (h : a.Beside few many b)
    (hBare : ∀ context, (change context).bare = (change context.bare).bare)
    (hSized : ∀ context limits, context.Sized limits → (change context).Sized limits) :
    Abreast few many pushes ((modify change : Step Unit) a)
      ((modify change : Step Unit) b) :=
  .answers (h.writes change hBare hSized)

private theorem abreast_note {notice : Notice} (h : a.Beside few many b) :
    Abreast few many pushes (note notice a) (note notice b) :=
  abreast_modify h (fun _ => rfl) fun _ _ hSized => { hSized with }

private theorem abreast_freshId (h : a.Beside few many b) :
    Abreast few many pushes (freshId a) (freshId b) := by
  have hBeside :=
    h.writes (fun context => { context with nextId := context.nextId + 1 })
    (fun _ => rfl)
    fun _ _ hSized => { hSized with }
  have hId : a.nextId = b.nextId := h.reads Context.nextId fun _ => rfl
  have hFresh (context : Context) :
      freshId context = .ok context.nextId { context with nextId := context.nextId + 1
        } := rfl
  rw [hFresh a, hFresh b, ← hId]
  exact .answers (hId ▸ hBeside)

/-! ## Operations on one stack -/

/-- What an operation on a stack makes of a context. -/
def settle (context : Context) (put : Stack β → Context) :
    Except Error (Stack β) → EStateM.Result Error Context Unit
  | .ok stack => .ok () (put stack)
  | .error error => .error error context

/-- An operation that does the same to one stack of both contexts, or is refused a place
on it. -/
theorem abreast_settle (kind : StackKind) {left right : Except Error (Stack β)}
    (put : Context → Stack β → Context) (h : a.Beside few many b)
    (hMatched : Matched kind (few.get kind) (many.get kind) pushes (a.depths.get kind)
      left right)
    (hPut : ∀ stack other, stack.Sized kind (few.get kind) →
      other.Sized kind (many.get kind) → stack.bare = other.bare →
      (put a stack).Beside few many (put b other))
    (hDepth : ∀ context stack, (put context stack).depths.get kind = stack.depth) :
    Abreast few many pushes (settle a (put a) left) (settle b (put b) right) := by
  cases hMatched with
  | keeps hLeft hRight live =>
      exact .answers (hPut _ _ hLeft hRight (hLeft.bare_eq hRight live))
  | fails hasRoom => exact .fails hasRoom h
  | refused isPush isFull isEqual => exact .refused isPush isFull isEqual h
  | refusedLeft isPush isFull isSmaller isPast =>
      exact .refusedLeft isPush h.left isFull isSmaller
        (Nat.lt_of_lt_of_eq isPast (hDepth b _).symm)
  | refusedRight isPush isFull isSmaller isPast =>
      exact .refusedRight isPush h.right (h.depths ▸ isFull)
        isSmaller (Nat.lt_of_lt_of_eq isPast (hDepth a _).symm)

/-- An operation on the region stack of a context is what it does to that stack, put
back into its place. -/
theorem onRegions_eq (f : Stack Region → Except Error (Stack Region))
    (context : Context) :
    onRegions f context = settle context (fun regions => { context with regions })
      (f context.regions) := by
  change EStateM.bind (Context.ofExcept (f context.regions)) _ context = _
  unfold EStateM.bind
  cases f context.regions <;> rfl

private theorem abreast_onRegions {f : Stack Region → Except Error (Stack Region)}
    (h : a.Beside few many b)
    (hMatched : a.regions.live = b.regions.live →
      Matched .regions few.regions many.regions pushes a.regions.depth (f a.regions)
        (f b.regions)) :
    Abreast few many pushes (onRegions f a) (onRegions f b) := by
  rw [onRegions_eq, onRegions_eq]
  exact abreast_settle .regions (fun context regions => { context with regions }) h
    (hMatched (h.reads (fun context => context.regions.live) fun _ => rfl))
      (fun _ _ => h.withRegions) fun _ _ => rfl

/-- The same for the dispatch stack. -/
theorem onDispatch_eq (f : Stack Dispatch → Except Error (Stack Dispatch))
    (context : Context) :
    onDispatch f context = settle context (fun dispatch => { context with dispatch })
      (f context.dispatch) := by
  change EStateM.bind (Context.ofExcept (f context.dispatch)) _ context = _
  unfold EStateM.bind
  cases f context.dispatch <;> rfl

private theorem abreast_onDispatch {f : Stack Dispatch → Except Error (Stack Dispatch)}
    (h : a.Beside few many b)
    (hMatched : a.dispatch.live = b.dispatch.live →
      Matched .dispatch few.dispatch many.dispatch pushes a.dispatch.depth
        (f a.dispatch) (f b.dispatch)) :
    Abreast few many pushes (onDispatch f a) (onDispatch f b) := by
  rw [onDispatch_eq, onDispatch_eq]
  exact abreast_settle .dispatch (fun context dispatch => { context with dispatch }) h
    (hMatched (h.reads (fun context => context.dispatch.live) fun _ => rfl))
      (fun _ _ => h.withDispatch) fun _ _ => rfl

/-- The same for the marks of guard scopes. -/
theorem onGuards_eq (f : Stack ScopeMark → Except Error (Stack ScopeMark))
    (context : Context) :
    onGuards f context = settle context (fun guards => { context with guards })
      (f context.guards) := by
  change EStateM.bind (Context.ofExcept (f context.guards)) _ context = _
  unfold EStateM.bind
  cases f context.guards <;> rfl

private theorem abreast_onGuards {f : Stack ScopeMark → Except Error (Stack ScopeMark)}
    (h : a.Beside few many b)
    (hMatched : a.guards.live = b.guards.live →
      Matched .guards few.guards many.guards pushes a.guards.depth (f a.guards)
        (f b.guards)) :
    Abreast few many pushes (onGuards f a) (onGuards f b) := by
  rw [onGuards_eq, onGuards_eq]
  exact abreast_settle .guards (fun context guards => { context with guards }) h
    (hMatched (h.reads (fun context => context.guards.live) fun _ => rfl))
      (fun _ _ => h.withGuards) fun _ _ => rfl

/-- The same for the frames. -/
theorem onFrames_eq (f : Frames → Except Error Frames) (context : Context) :
    onFrames f context = settle context (fun frames => { context with frames })
      (f context.frames) := by
  change EStateM.bind (Context.ofExcept (f context.frames)) _ context = _
  unfold EStateM.bind
  cases f context.frames <;> rfl

private theorem abreast_onFrames {f : Frames → Except Error Frames}
    (h : a.Beside few many b)
    (hMatched : a.frames.live = b.frames.live →
      Matched .frames few.frames many.frames pushes a.frames.depth (f a.frames)
        (f b.frames)) :
    Abreast few many pushes (onFrames f a) (onFrames f b) := by
  rw [onFrames_eq, onFrames_eq]
  exact abreast_settle .frames (fun context frames => { context with frames }) h
    (hMatched (h.reads (fun context => context.frames.live) fun _ => rfl))
      (fun _ _ => h.withFrames) fun _ _ => rfl

/-- The same for the records. -/
theorem onRecords_eq (f : Records → Except Error Records) (context : Context) :
    onRecords f context = settle context (fun records => { context with records })
      (f context.records) := by
  change EStateM.bind (Context.ofExcept (f context.records)) _ context = _
  unfold EStateM.bind
  cases f context.records <;> rfl

private theorem abreast_onRecords {f : Records → Except Error Records}
    (h : a.Beside few many b)
    (hMatched : a.records.live = b.records.live →
      Matched .exceptions few.exceptions many.exceptions pushes a.records.depth
        (f a.records) (f b.records)) :
    Abreast few many pushes (onRecords f a) (onRecords f b) := by
  rw [onRecords_eq, onRecords_eq]
  exact abreast_settle .exceptions (fun context records => { context with records }) h
    (hMatched (h.reads (fun context => context.records.live) fun _ => rfl))
      (fun _ _ => h.withRecords) fun _ _ => rfl

/-! ## Steps that take nothing off -/

private theorem grows_pure (answer : α) :
    Grows (pure answer : Step α) := fun _ _ => Nat.le_refl _

private theorem grows_throw (error : Error) :
    Grows (throw error : Step α) := fun _ _ => Nat.le_refl _

private theorem grows_bind {first : Step β} {rest : β → Step α} (hFirst : Grows first)
    (hRest : ∀ answer, Grows (rest answer)) :
    Grows (first >>= rest) := by
  intro context kind
  have hBefore := hFirst context kind
  change _ ≤ (leftBehind (EStateM.bind first rest context)).depths.get kind
  unfold EStateM.bind
  generalize first context = outcome at hBefore
  cases outcome with
  | ok answer after => exact Nat.le_trans hBefore (hRest answer after kind)
  | error error after => exact hBefore

private theorem grows_get {rest : Context → Step α}
    (h : ∀ context, Grows (rest context)) : Grows ((get : Step Context) >>= rest) :=
  fun context kind => h context context kind

private theorem grows_modify {change : Context → Context}
    (h : ∀ context, (change context).depths = context.depths) :
    Grows (modify change : Step Unit) :=
  fun context kind =>
    Nat.le_of_eq (congrArg (fun depths => depths.get kind) (h context).symm)

private theorem grows_note (notice : Notice) :
    Grows (note notice) := fun _ _ => Nat.le_refl _

private theorem grows_onDispatch (mark : Dispatch) :
    Grows (onDispatch fun dispatch => dispatch.place mark) := by
  intro context kind
  rw [onDispatch_eq]
  cases hPlace : context.dispatch.place mark with
  | error error => exact Nat.le_refl _
  | ok placed =>
      have hDepth := Stack.depth_of_cons (Stack.live_place hPlace).1
      cases kind with
      | dispatch =>
          exact Nat.le_of_lt (Nat.lt_of_lt_of_eq (Nat.lt_succ_self _) hDepth.symm)
      | _ => exact Nat.le_refl _

private theorem grows_onFrames (site : Site) :
    Grows (onFrames fun frames => frames.enter site) := by
  intro context kind
  rw [onFrames_eq]
  cases hPlace : context.frames.enter site with
  | error error => exact Nat.le_refl _
  | ok placed =>
      have hDepth := Stack.depth_of_cons (Frames.live_enter hPlace)
      cases kind with
      | frames =>
          exact Nat.le_of_lt (Nat.lt_of_lt_of_eq (Nat.lt_succ_self _) hDepth.symm)
      | _ => exact Nat.le_refl _

private theorem grows_setState (visit : Visit) (state : RegionState) :
    Grows (setState visit state) := by
  unfold setState
  refine grows_get fun context => ?_
  cases context.regions.top? with
  | none => exact grows_throw _
  | some region =>
      dsimp only
      split
      · exact grows_bind (grows_note _) fun _ => grows_modify fun _ => rfl
      · exact grows_throw _

private theorem grows_catchInFlight (visit : Visit) : Grows (catchInFlight visit) := by
  unfold catchInFlight
  refine grows_bind (grows_setState visit .matching) fun _ => grows_get
    fun context => ?_
  cases context.inFlight with
  | none => exact grows_throw _
  | some index =>
      refine grows_bind (grows_modify fun _ => rfl) fun _ => grows_get fun context => ?_
      cases context.records.get? index with
      | none => exact grows_throw _
      | some record => exact grows_get fun context => grows_pure _

/-! ## Steps that push nothing -/

private theorem abreast_setState {visit : Visit} {state : RegionState}
    (h : a.Beside few many b) :
    Abreast few many pushes (setState visit state a) (setState visit state b) := by
  unfold setState
  refine abreast_get ?_
  rw [h.reads (fun context => context.regions.top?) fun _ => rfl]
  cases b.regions.top? with
  | none => exact abreast_fail h
  | some region =>
      dsimp only
      split
      · refine abreast_then (abreast_note h) fun _ a b h => abreast_modify h
          (fun _ => rfl) fun context limits hSized => ?_
        exact { hSized with
          regions :=
            ⟨hSized.regions.name, hSized.regions.limit, hSized.regions.within⟩ }
      · exact abreast_fail h

/-- To catch what is in flight needs no room, so it comes out alike. -/
theorem abreast_catchInFlight {visit : Visit} (h : a.Beside few many b) :
    Abreast few many pushes (catchInFlight visit a) (catchInFlight visit b) := by
  unfold catchInFlight
  refine abreast_then (abreast_setState h) fun _ a b h => abreast_get ?_
  rw [h.inFlight]
  cases b.inFlight with
  | none => exact abreast_fail h
  | some index =>
      refine abreast_then
        (abreast_modify h (fun _ => rfl) fun _ _ hSized => { hSized with })
        fun _ a b h => abreast_get ?_
      rw [h.reads (fun context => context.records.get? index) fun _ => rfl]
      cases b.records.get? index with
      | none => exact abreast_fail h
      | some record =>
          refine abreast_get ?_
          rw [h.reads (fun context => record.toException context.frames) fun _ => rfl]
          exact abreast_pure h

/-- A dispatch mark that goes needs no room. -/
theorem abreast_popDispatch {owner : Nat} {purpose : Purpose}
    (h : a.Beside few many b) :
    Abreast few many pushes (popDispatch owner purpose a)
      (popDispatch owner purpose b) := by
  unfold popDispatch
  refine abreast_get ?_
  rw [h.reads (fun context => context.dispatch.top?) fun _ => rfl]
  cases b.dispatch.top? with
  | none => exact abreast_throw h (NoRoom.not_underflow _)
  | some mark =>
      dsimp only
      generalize (if mark.isGuard = true then Purpose.guard else Purpose.region) = found
      split
      · refine abreast_then
          (abreast_onDispatch h (matched_pop h.left.dispatch h.right.dispatch))
          fun _ a b h => ?_
        cases mark with
        | region owner => exact abreast_pure h
        | guard owner parked =>
            exact abreast_modify h (fun _ => rfl) fun _ _ hSized => { hSized with }
      · exact abreast_fail h

/-- A region that goes on to its handler needs no room. -/
theorem abreast_beginHandling {visit : Visit} (h : a.Beside few many b) :
    Abreast few many pushes (beginHandling visit a) (beginHandling visit b) :=
  abreast_then (abreast_popDispatch h) fun _ _ _ h => abreast_setState h

private theorem abreast_takeEscape {owner : Nat} (h : a.Beside few many b) :
    Abreast few many pushes (takeEscape owner a) (takeEscape owner b) := by
  unfold takeEscape
  refine abreast_get ?_
  rw [h.reads Context.escapes fun _ => rfl]
  cases b.escapes with
  | nil => exact abreast_pure h
  | cons escape older =>
      dsimp only
      split
      · exact abreast_then
          (abreast_modify h (fun _ => rfl) fun _ _ hSized => { hSized with })
          fun _ _ _ h => abreast_pure h
      · exact abreast_pure h

private theorem abreast_releaseRecords {depth : Nat} {keep : Bool}
    (h : a.Beside few many b) :
    Abreast few many pushes (releaseRecords depth keep a)
      (releaseRecords depth keep b) := by
  have truncates {a b : Context} (h : a.Beside few many b) :
      Abreast few many pushes
        (onRecords (fun records => .ok (records.truncate depth)) a)
        (onRecords (fun records => .ok (records.truncate depth)) b) :=
    abreast_onRecords h fun hLive => matched_truncate h.left.records h.right.records
      hLive depth
  unfold releaseRecords
  refine abreast_get ?_
  rw [h.inFlight]
  cases b.inFlight with
  | none => exact truncates h
  | some index =>
      dsimp only
      split
      · exact truncates h
      · split
        · refine abreast_then (abreast_onRecords h fun hLive =>
            matched_keepOnly h.left.records h.right.records hLive depth index) ?_
          exact fun _ a b h => abreast_modify h (fun _ => rfl) fun _ _ hSized =>
            { hSized with }
        · exact abreast_then
            (abreast_modify h (fun _ => rfl) fun _ _ hSized => { hSized with })
            fun _ a b h => truncates h

private theorem abreast_detachAbove {depth : Nat} (h : a.Beside few many b) :
    Abreast few many pushes (detachAbove depth a) (detachAbove depth b) :=
  abreast_modify h (fun _ => rfl) fun _ _ hSized =>
    { hSized with
      records := ⟨hSized.records.name, hSized.records.limit, hSized.records.within⟩ }

private theorem abreast_reconcileFrames {depth : Nat} (h : a.Beside few many b) :
    Abreast few many pushes (reconcileFrames depth a) (reconcileFrames depth b) := by
  have hLive : a.frames.live = b.frames.live :=
    h.reads (fun context => context.frames.live) fun _ => rfl
  have hDepth := Stack.depth_of_live hLive
  have hTop : a.frames.top? = b.frames.top? := congrArg List.head? hLive
  have hTruncated :=
    h.withFrames (h.left.frames.truncate depth) (h.right.frames.truncate depth)
    ((h.left.frames.truncate depth).bare_eq (h.right.frames.truncate depth) (by
      rw [Stack.live_truncate, Stack.live_truncate, Stack.bottom, Stack.bottom, hLive,
        hDepth]))
  unfold reconcileFrames
  refine abreast_get ?_
  rw [← hDepth]
  refine abreast_get ?_
  unfold Frames.reconcile
  rw [← hDepth, ← hTop]
  split
  · exact abreast_fail h
  · split
    · exact .answers h
    · cases a.frames.top? with
      | none => exact .answers h
      | some innermost =>
          exact .answers (hTruncated.writes (fun context => { context with
            journal :=
              .framesLeftOver depth a.frames.depth innermost :: context.journal })
              (fun _ => rfl)
            fun _ _ hSized => { hSized with })

private theorem abreast_dropDispatch {visit : Visit} (h : a.Beside few many b) :
    Abreast few many pushes (dropDispatch visit a) (dropDispatch visit b) := by
  unfold dropDispatch
  refine abreast_get ?_
  rw [h.reads (fun context => context.dispatch.top?) fun _ => rfl]
  cases b.dispatch.top? with
  | none => exact abreast_pure h
  | some mark =>
      dsimp only
      split
      · exact abreast_onDispatch h (matched_pop h.left.dispatch h.right.dispatch)
      · exact abreast_pure h

/-- A guard scope that gives up its mark needs no room. -/
theorem abreast_closeScope {mark : Nat} (h : a.Beside few many b) :
    Abreast few many pushes (closeScope mark a) (closeScope mark b) := by
  unfold closeScope
  refine abreast_get ?_
  rw [h.reads (fun context => context.guards.top?) fun _ => rfl]
  cases b.guards.top? with
  | none => exact abreast_throw h (NoRoom.not_underflow _)
  | some innermost =>
      dsimp only
      split
      · exact abreast_onGuards h (matched_pop h.left.guards h.right.guards)
      · exact abreast_fail h

private theorem abreast_leaveFrame (h : a.Beside few many b) :
    Abreast few many pushes (onFrames Frames.leave a) (onFrames Frames.leave b) :=
  abreast_onFrames h (matched_pop h.left.frames h.right.frames)

/-- A traced call that is left needs no room. -/
theorem abreast_leaveCall {entry : Depths} {unwinding : Bool}
    (h : a.Beside few many b) :
    Abreast few many pushes (leaveCall entry unwinding a)
      (leaveCall entry unwinding b) := by
  unfold leaveCall
  refine abreast_then (abreast_detachAbove h) fun _ a b h => ?_
  refine abreast_then (abreast_reconcileFrames h) fun _ a b h => ?_
  refine abreast_then (abreast_leaveFrame h) fun _ a b h => ?_
  split
  · exact abreast_pure h
  · refine abreast_get ?_
    rw [h.depths]
    split
    · exact abreast_pure h
    · exact abreast_fail h

/-- The check at the end of a region looks at depths and at the record in flight. -/
theorem abreast_balance {visit : Visit} {unwinding : Bool} (h : a.Beside few many b) :
    let balance : Step Unit := do
      let context ← get
      let carried := unwinding && context.inFlight == some visit.entry.exceptions
      let now := context.depths
      let exit := if carried then { now with exceptions := now.exceptions - 1 } else now
      unless (exit.mismatches visit.entry).isEmpty do
        fail (.regionUnbalanced visit.site visit.entry exit)
    Abreast few many pushes (balance a) (balance b) := by
  refine abreast_get ?_
  rw [h.depths, h.inFlight]
  generalize (if (unwinding && b.inFlight == some visit.entry.exceptions) = true then
    { b.depths with exceptions := b.depths.exceptions - 1 } else b.depths) = exit
  split
  · exact abreast_pure h
  · exact abreast_fail h

/-- What leaving a region does once its escape is out of the way. -/
theorem abreast_leaveEmptied {visit : Visit} {unwinding : Bool}
    (h : a.Beside few many b) :
    let emptied : Step Unit := do
      dropDispatch visit
      let entry := visit.entry
      releaseRecords entry.exceptions unwinding
      detachAbove entry.frames
      let top := (← get).regions.top?
      onRegions fun regions => regions.pop.map Prod.snd
      onFrames Frames.leave
      if let some region := top then
        note (.regionMoved region.visit.id region.visit.site region.state .outside)
      let context ← get
      let carried := unwinding && context.inFlight == some entry.exceptions
      let now := context.depths
      let exit := if carried then { now with exceptions := now.exceptions - 1 } else now
      unless (exit.mismatches entry).isEmpty do
        fail (.regionUnbalanced visit.site entry exit)
    Abreast few many pushes (emptied a) (emptied b) := by
  refine abreast_then (abreast_dropDispatch h) fun _ a b h => ?_
  refine abreast_then (abreast_releaseRecords h) fun _ a b h => ?_
  refine abreast_then (abreast_detachAbove h) fun _ a b h => abreast_get ?_
  rw [h.reads (fun context => context.regions.top?) fun _ => rfl]
  generalize b.regions.top? = top
  refine abreast_then (abreast_onRegions h (matched_pop h.left.regions h.right.regions))
    fun _ a b h => ?_
  refine abreast_then (abreast_leaveFrame h) fun _ a b h => ?_
  cases top with
  | none => exact abreast_balance h
  | some region => exact abreast_then (abreast_note h) fun _ _ _ h => abreast_balance h

/-- A region that is left needs no room, even where it moves the record in flight
down. -/
theorem abreast_leave {visit : Visit} {unwinding : Bool} (h : a.Beside few many b) :
    Abreast few many pushes (leave visit unwinding a) (leave visit unwinding b) := by
  unfold leave
  refine abreast_then (abreast_setState h) fun _ a b h => ?_
  refine abreast_then (abreast_takeEscape h) fun escape a b h => ?_
  cases escape with
  | none => exact abreast_leaveEmptied h
  | some escape =>
      exact abreast_then (abreast_note h) fun _ _ _ h => abreast_leaveEmptied h

/-- A region that is abandoned needs no room. -/
theorem abreast_abandon {visit : Visit} (h : a.Beside few many b) :
    Abreast few many pushes (abandon visit a) (abandon visit b) := by
  unfold abandon
  refine abreast_get ?_
  rw [h.depths]
  refine abreast_then (abreast_note h) fun _ a b h => ?_
  refine abreast_then (abreast_releaseRecords h) fun _ a b h => ?_
  refine abreast_then (abreast_detachAbove h) fun _ a b h => ?_
  refine abreast_then
    (abreast_onRegions h fun hLive => matched_truncate h.left.regions h.right.regions
    hLive _)
    fun _ a b h => ?_
  refine abreast_then
    (abreast_onDispatch h fun hLive => matched_truncate h.left.dispatch h.right.dispatch
    hLive _)
    fun _ a b h => ?_
  refine abreast_then
    (abreast_onGuards h fun hLive => matched_truncate h.left.guards h.right.guards hLive
    _) fun _ a b h => ?_
  refine abreast_then (abreast_reconcileFrames h) fun _ a b h => abreast_get ?_
  rw [h.reads reporter? fun _ => rfl]
  cases reporter? b with
  | none => exact abreast_fail h
  | some owner =>
      refine abreast_get ?_
      rw [h.reads (fun context => context.escapes.head?.map Escape.owner) fun _ => rfl]
      split
      · exact abreast_note h
      · exact abreast_modify h (fun _ => rfl) fun _ _ hSized => { hSized with }

/-! ## Steps that push -/

/-- A call is entered in the same way, whatever the node that becomes its frame has
held. -/
theorem abreast_enterFrame {site : Site} (h : a.Beside few many b) :
    Abreast few many True (onFrames (fun frames => frames.enter site) a)
      (onFrames (fun frames => frames.enter site) b) := by
  refine abreast_onFrames h fun hLive => ?_
  rw [Frames.enter_eq_place, Frames.enter_eq_place]
  exact matched_place h.left.frames h.right.frames hLive trivial _

/-- To enter a region comes out alike, unless one of the sides has no room for it. -/
theorem abreast_enter {site : Site} {explicit : Bool} (h : a.Beside few many b) :
    Abreast few many True (enter site explicit a) (enter site explicit b) := by
  unfold enter
  refine abreast_get ?_
  rw [h.depths]
  refine abreast_then (abreast_freshId h) fun id a b h => ?_
  cases explicit with
  | true =>
      refine abreast_bind
        (abreast_onRegions h fun hLive => matched_place h.left.regions h.right.regions
        hLive trivial _)
        (fun _ => ⟨trivial, fun _ => ?_⟩) fun _ a b h => ?_
      · exact grows_bind (grows_onFrames site) fun _ => grows_bind (grows_note _)
          fun _ => grows_pure _
      · refine abreast_bind (abreast_enterFrame h)
          (fun _ => ⟨trivial, fun _ => grows_bind (grows_note _) fun _ => grows_pure _⟩)
            fun _ a b h => ?_
        exact abreast_then (abreast_note h) fun _ a b h => abreast_pure h
  | false =>
      refine abreast_bind
        (abreast_onRegions h fun hLive => matched_place h.left.regions h.right.regions
        hLive trivial _)
        (fun _ => ⟨trivial, fun _ => ?_⟩) fun _ a b h => ?_
      · exact grows_bind (grows_onDispatch _) fun _ => grows_bind (grows_onFrames site)
          fun _ =>
          grows_bind (grows_note _) fun _ => grows_bind (grows_setState _ _)
            fun _ => grows_pure _
      · refine abreast_bind
          (abreast_onDispatch h fun hLive => matched_place h.left.dispatch
          h.right.dispatch hLive trivial _)
          (fun _ => ⟨trivial, fun _ => ?_⟩) fun _ a b h => ?_
        · exact grows_bind (grows_onFrames site) fun _ => grows_bind (grows_note _)
            fun _ =>
            grows_bind (grows_setState _ _) fun _ => grows_pure _
        · refine abreast_bind (abreast_enterFrame h) (fun _ => ⟨trivial, fun _ => ?_⟩)
            fun _ a b h => ?_
          · exact grows_bind (grows_note _) fun _ => grows_bind (grows_setState _ _)
              fun _ => grows_pure _
          · refine abreast_then (abreast_note h) fun _ a b h => ?_
            exact abreast_then (abreast_setState h) fun _ a b h => abreast_pure h

/-- A fresh record points into the live frames, and is the same whatever its node has
held. -/
theorem abreast_record {frames others : Frames} {kind : Kind} {message : String}
    {origin : Site} (h : a.Beside few many b) (hFrames : frames.depth = others.depth) :
    Abreast few many True
      (onRecords (fun records => records.raise kind message origin frames) a)
      (onRecords (fun records => records.raise kind message origin others) b) := by
  simp only [Records.raise_eq_place]
  rw [hFrames]
  exact abreast_onRecords h fun hLive => matched_place h.left.records h.right.records
    hLive trivial _

/-- To raise what a region has to report comes out alike, unless one of the sides has no
room for it. -/
theorem abreast_claimEscape {slots : Slots} {visit : Visit} (h : a.Beside few many b) :
    Abreast few many True (claimEscape slots visit a) (claimEscape slots visit b) := by
  unfold claimEscape
  refine abreast_then (abreast_takeEscape h) fun escape a b h => ?_
  cases escape with
  | none => exact abreast_pure h
  | some escape =>
      refine abreast_get ?_
      rw [h.reads Context.escapeKind fun _ => rfl,
        h.reads Context.messageLimit fun _ => rfl]
      refine abreast_bind
        (abreast_record h (h.reads (fun context => context.frames.depth) fun _ => rfl))
        (fun _ => ⟨trivial, fun _ => ?_⟩) fun _ a b h => ?_
      · exact grows_bind (grows_modify fun _ => rfl) fun _ => grows_bind (grows_note _)
          fun _ =>
          grows_bind (grows_catchInFlight visit) fun _ => grows_pure _
      · refine abreast_then
          (abreast_modify h (fun _ => rfl) fun _ _ hSized => { hSized with })
          fun _ a b h => ?_
        refine abreast_then (abreast_note h) fun _ a b h => ?_
        exact abreast_then (abreast_catchInFlight h) fun _ a b h => abreast_pure h

/-- To raise an exception comes out alike, unless one of the sides has no room for
it. -/
theorem abreast_raise {table : KindTable} {kind : Kind} {site : Site} {written : String}
    (h : a.Beside few many b) :
    Abreast few many True (raise table kind site written a)
      (raise table kind site written b) := by
  unfold raise
  refine abreast_get ?_
  refine abreast_bind
    (abreast_record h (h.reads (fun context => context.frames.depth) fun _ => rfl))
    (fun _ => ⟨trivial, fun _ => grows_get fun context => ?_⟩)
      fun _ a b h => abreast_get ?_
  · split
    · exact grows_bind (grows_modify fun _ => rfl) fun _ => grows_pure _
    · cases context.current? with
      | none => exact grows_throw _
      | some exception => exact grows_pure _
  · rw [h.reads hasHandler fun _ => rfl, h.reads current? fun _ => rfl]
    split
    · exact abreast_then
        (abreast_modify h (fun _ => rfl) fun _ _ hSized => { hSized with })
        fun _ a b h => abreast_pure h
    · cases b.current? with
      | none => exact abreast_throw h (NoRoom.not_underflow _)
      | some exception => exact abreast_pure h

/-- To send an exception on comes out alike, unless one of the sides has no room for
it. -/
theorem abreast_forward {exception : Exception} (h : a.Beside few many b) :
    Abreast few many True (forward exception a) (forward exception b) := by
  unfold forward
  refine abreast_get ?_
  rw [h.reads hasHandler fun _ => rfl]
  split
  · refine abreast_bind
      (abreast_onRecords h fun hLive => matched_push h.left.records h.right.records
      hLive trivial _)
      (fun _ =>
        ⟨trivial, fun _ => grows_bind (grows_modify fun _ => rfl)
          fun _ => grows_pure _⟩) fun _ a b h => ?_
    exact abreast_then
      (abreast_modify h (fun _ => rfl) fun _ _ hSized => { hSized with })
      fun _ a b h => abreast_pure h
  · exact abreast_pure h

/-- To put down the mark of a guard scope comes out alike, unless one of the sides has
no room for it. -/
theorem abreast_openScope {site : Site} (h : a.Beside few many b) :
    Abreast few many True (openScope site a) (openScope site b) := by
  unfold openScope
  refine abreast_then (abreast_freshId h) fun id a b h => ?_
  exact abreast_bind
    (abreast_onGuards h fun hLive => matched_place h.left.guards h.right.guards hLive
    trivial _)
    (fun _ => ⟨trivial, fun _ => grows_pure _⟩) fun _ a b h => abreast_pure h

/-- To begin a guard body comes out alike, unless one of the sides has no room for what
it parks. -/
theorem abreast_shield {owner : Nat} (h : a.Beside few many b) :
    Abreast few many True (shield owner a) (shield owner b) := by
  unfold shield
  refine abreast_get ?_
  rw [h.inFlight]
  exact abreast_bind
    (abreast_onDispatch h fun hLive => matched_place h.left.dispatch h.right.dispatch
    hLive trivial _)
    (fun _ => ⟨trivial, fun _ => grows_modify fun _ => rfl⟩)
    fun _ a b h => abreast_modify h (fun _ => rfl) fun _ _ hSized => { hSized with }

/-- To enter a traced call comes out alike, unless one of the sides has no room for its
frame. -/
theorem abreast_enterCall {site : Site} (h : a.Beside few many b) :
    Abreast few many True (enterCall site a) (enterCall site b) := by
  unfold enterCall
  refine abreast_get ?_
  rw [h.depths]
  exact abreast_bind
    (abreast_onFrames h fun hLive => matched_place h.left.frames h.right.frames hLive
    trivial _)
    (fun _ => ⟨trivial, fun _ => grows_pure _⟩) fun _ a b h => abreast_pure h

/-! ## Room -/

/-- A step that pushes nothing does not fail for want of room. -/
theorem room_of_abreast {limits : Limits} {step : Step α} {left : Context}
    {error : Error} (h : Abreast limits limits False (step a) (step a))
    (hFails : step a = .error error left) : ¬ NoRoom error := by
  rw [hFails] at h
  cases h with
  | fails hasRoom _ => exact hasRoom
  | refused isPush _ _ _ => exact isPush.elim
  | refusedLeft isPush _ _ _ _ => exact isPush.elim
  | refusedRight isPush _ _ _ _ => exact isPush.elim

end

end Unwinding
