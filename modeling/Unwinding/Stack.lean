import Unwinding.Error

/-!
# Stacks that keep their nodes

A thread pushes and pops the same few kinds of entry all the time, so its stacks never
give a node back: a node that leaves the live part goes onto a spare list, and the next
entry is written over it. A stack also has a capacity, which bounds its live part only.

Both lists are kept with the node that is used next at the front: the head of `live` is
the top of the stack, and the head of `spare` is the node that is handed out next.
Entries are still *counted* from the bottom, because a handle remembers a depth: `get?`,
`truncate` and `bottom` speak of the oldest entries.

## Main results

* `depth` is stored beside the live list and always equals its length (`depth_eq`), so a
  depth is read without walking the stack.
* `live_push`, `live_place`, `live_pop`, `live_take`, `live_truncate` — what each
  operation does to the live part.
* `refill_eq_place`, `place_eq_push` — for a caller that overwrites all of the node it
  is given, what the spare node held before is invisible.
-/

namespace Unwinding

/-- A stack with a capacity, and the nodes it keeps for later.

Entries and spare nodes are kept apart. Of a spare node only the contents count, which
the next entry may be written over. The depth is kept beside the list, as a program that
asks for it often would keep it. -/
structure Stack (α : Type) where
  name : String
  limit : Nat
  /-- The entries, top first. -/
  live : List α
  /-- The nodes kept for later, next one first. -/
  spare : List α
  /-- The number of entries. -/
  depth : Nat
  depth_eq : depth = live.length

namespace Stack

variable {α : Type}

/-- The largest capacity, for stacks that set none of their own. -/
def unlimited : Nat := 0xFFFFFFFFFFFFFFFF

/-- A stack with no nodes at all. -/
def empty (name : String) (limit : Nat) : Stack α :=
  ⟨name, limit, [], [], 0, rfl⟩

/-! ## Looking at a stack -/

/-- Whether nothing has been pushed, or all of it has been popped. -/
def isEmpty (stack : Stack α) : Bool :=
  stack.depth == 0

/-- The newest entry. -/
def top? (stack : Stack α) : Option α :=
  stack.live.head?

/-- The entries, oldest first. -/
def toList (stack : Stack α) : List α :=
  stack.live.reverse

/-- The entry at an index counted from the bottom. -/
def get? (stack : Stack α) (index : Nat) : Option α :=
  if index < stack.depth then stack.live[stack.depth - 1 - index]? else none

/-- The oldest `depth` entries, top first; all of them if there are no more than
that. -/
def bottom (stack : Stack α) (depth : Nat) : List α :=
  stack.live.drop (stack.depth - depth)

/-! ## Giving nodes to a stack -/

/-- Donates nodes; the last one given is the first one handed out. -/
def grow (stack : Stack α) (nodes : List α) : Stack α :=
  { stack with spare := nodes.reverse ++ stack.spare }

/-- Donates a number of equal nodes. -/
def reserve (stack : Stack α) (count : Nat) (node : α) : Stack α :=
  { stack with spare := List.replicate count node ++ stack.spare }

/-! ## Entries in -/

/-- Refuses when the live part has reached the capacity. -/
def checkCapacity (stack : Stack α) : Except Error Unit :=
  if stack.limit ≤ stack.depth then
    .error (.capacityExceeded stack.name stack.limit)
  else
    .ok ()

/-- Puts an entry on top without asking for room. -/
private def put (stack : Stack α) (node : α) : Stack α :=
  { stack with
    live := node :: stack.live
    depth := stack.depth + 1
    depth_eq := by simp [stack.depth_eq] }

/-- Puts a node of the caller's on top; the spare nodes are left where they are. -/
def push (stack : Stack α) (node : α) : Except Error (Stack α) :=
  stack.checkCapacity.map fun _ => stack.put node

/-- Puts a spare node on top, with whatever it holds. -/
def allocSpare (stack : Stack α) : Except Error (α × Stack α) := do
  stack.checkCapacity
  match stack.spare with
  | node :: spare => return (node, { stack with spare }.put node)
  | [] => throw (.exhausted stack.name)

/-- Puts a spare node on top with whatever it holds, or a fresh one if none is spare.
The flag tells whether the fresh one was needed. -/
def alloc (stack : Stack α) (fresh : α) : Except Error (α × Bool × Stack α) := do
  stack.checkCapacity
  match stack.spare with
  | node :: spare => return (node, false, { stack with spare }.put node)
  | [] => return (fresh, true, stack.put fresh)

/-- Puts a spare node on top, or a fresh one if none is spare, and writes to it. -/
def refill (stack : Stack α) (fresh : α) (write : α → α) : Except Error (Stack α) :=
  stack.checkCapacity.map fun _ => { stack with spare := stack.spare.tail }.put
    (write (stack.spare.headD fresh))

/-- Puts an entry on top, written over a spare node if there is one. -/
def place (stack : Stack α) (entry : α) : Except Error (Stack α) :=
  stack.refill entry fun _ => entry

/-! ## Entries out -/

/-- Takes the top entry off; its node becomes spare with its contents. -/
def pop (stack : Stack α) : Except Error (α × Stack α) :=
  match h : stack.live with
  | node :: live =>
      .ok (node, { stack with
        live
        spare := node :: stack.spare
        depth := stack.depth - 1
        depth_eq := by simp [stack.depth_eq, h] })
  | [] => .error (.stackUnderflow stack.name)

/-- Takes the top entry off for good; its node leaves the stack. -/
def take (stack : Stack α) : Except Error (α × Stack α) :=
  match h : stack.live with
  | node :: live =>
      .ok (node, { stack with
        live
        depth := stack.depth - 1
        depth_eq := by simp [stack.depth_eq, h] })
  | [] => .error (.stackUnderflow stack.name)

/-- Takes entries off, one at a time, until at most `depth` are left.

The nodes come to lie with the spare ones in the order in which they are taken off, so
that as many allocations bring back the entries that were there. -/
def truncate (stack : Stack α) (depth : Nat) : Stack α :=
  { stack with
    live := stack.live.drop (stack.depth - depth)
    spare := (stack.live.take (stack.depth - depth)).reverse ++ stack.spare
    depth := min depth stack.depth
    depth_eq := by simp [← stack.depth_eq]; omega }

/-! ## Writing to nodes -/

/-- Rewrites every entry where it stands. -/
def map (stack : Stack α) (f : α → α) : Stack α :=
  { stack with live := stack.live.map f, depth_eq := by simp [stack.depth_eq] }

/-- Rewrites every entry where it stands, told how far from the top it is. -/
def mapIdx (stack : Stack α) (f : Nat → α → α) : Stack α :=
  { stack with live := stack.live.mapIdx f, depth_eq := by simp [stack.depth_eq] }

/-- Rewrites the top entry, if there is one. -/
def modifyTop (stack : Stack α) (f : α → α) : Stack α :=
  { stack with live := stack.live.modifyHead f, depth_eq := by simp [stack.depth_eq] }

/-- Rewrites the entry at an index counted from the bottom, if there is one. -/
def modify (stack : Stack α) (index : Nat) (f : α → α) : Stack α :=
  if index < stack.depth then
    { stack with
      live := stack.live.modify (stack.depth - 1 - index) f
      depth_eq := by simp [stack.depth_eq] }
  else
    stack

/-- Rewrites the node that is handed out next, if there is one. -/
def modifySpare (stack : Stack α) (f : α → α) : Stack α :=
  { stack with spare := stack.spare.modifyHead f }

/-! ## What the operations do to the live part -/

/-- Stacks are told apart by their names, limits, entries and spare nodes. -/
@[ext]
theorem ext {a b : Stack α} (name : a.name = b.name) (limit : a.limit = b.limit)
    (live : a.live = b.live) (spare : a.spare = b.spare) : a = b := by
  obtain ⟨_, _, _, _, _, ha⟩ := a
  obtain ⟨_, _, _, _, _, hb⟩ := b
  simp_all

@[simp] theorem live_empty (name : String) (limit : Nat) :
    (empty name limit : Stack α).live = [] := rfl

@[simp] theorem live_grow (stack : Stack α) (nodes : List α) :
    (stack.grow nodes).live = stack.live := rfl

@[simp] theorem live_reserve (stack : Stack α) (count : Nat) (node : α) :
    (stack.reserve count node).live = stack.live := rfl

/-- A stack has room as long as it holds fewer entries than its limit. -/
theorem checkCapacity_eq_ok {stack : Stack α} :
    stack.checkCapacity = .ok () ↔ stack.live.length < stack.limit := by
  unfold checkCapacity
  rw [stack.depth_eq]
  split <;> simp <;> omega

/-- An answer that was made from another is the image of it. -/
private theorem exists_of_map_eq_ok {β γ : Type} {outcome : Except Error β} {f : β → γ}
    {c : γ} (h : outcome.map f = .ok c) :
    ∃ b, outcome = .ok b ∧ f b = c := by
  cases outcome with
  | error e => cases h
  | ok b => exact ⟨b, rfl, by simpa [Except.map] using h⟩

/-- An entry that is pushed gets a node of its own, and lies on top. -/
theorem live_push {stack pushed : Stack α} {node : α}
    (h : stack.push node = .ok pushed) :
    pushed.live = node :: stack.live ∧ pushed.spare = stack.spare := by
  obtain ⟨_, _, rfl⟩ := exists_of_map_eq_ok h
  exact ⟨rfl, rfl⟩

/-- An entry that is placed takes a spare node, if one lies there. -/
theorem live_place {stack placed : Stack α} {entry : α}
    (h : stack.place entry = .ok placed) :
    placed.live = entry :: stack.live ∧ placed.spare = stack.spare.tail := by
  obtain ⟨_, _, rfl⟩ := exists_of_map_eq_ok h
  exact ⟨rfl, rfl⟩

/-- An entry that is popped was the newest one, and its node is spare from then on. -/
theorem live_pop {stack popped : Stack α} {node : α}
    (h : stack.pop = .ok (node, popped)) :
    stack.live = node :: popped.live ∧ popped.spare = node :: stack.spare := by
  unfold pop at h
  split at h
  · next hl =>
      simp only [Except.ok.injEq, Prod.mk.injEq] at h
      obtain ⟨rfl, rfl⟩ := h
      exact ⟨hl, rfl⟩
  · simp at h

/-- An entry that is taken is gone with its node. -/
theorem live_take {stack taken : Stack α} {node : α}
    (h : stack.take = .ok (node, taken)) :
    stack.live = node :: taken.live ∧ taken.spare = stack.spare := by
  unfold take at h
  split at h
  · next hl =>
      simp only [Except.ok.injEq, Prod.mk.injEq] at h
      obtain ⟨rfl, rfl⟩ := h
      exact ⟨hl, rfl⟩
  · simp at h

@[simp] theorem live_truncate (stack : Stack α) (depth : Nat) :
    (stack.truncate depth).live = stack.bottom depth := rfl

@[simp] theorem live_map (stack : Stack α) (f : α → α) :
    (stack.map f).live = stack.live.map f := rfl

/-- A live part that a longer one ends with is exactly the bottom of the longer one. -/
theorem bottom_of_append {stack : Stack α} {above below : List α}
    (h : stack.live = above ++ below) : stack.bottom below.length = below := by
  unfold bottom
  rw [stack.depth_eq, h]
  simp

/-- Nothing is left of what a node held, if whatever is written to it makes the same
entry of all nodes. -/
theorem refill_eq_place (stack : Stack α) (fresh : α) {write : α → α} {entry : α}
    (h : ∀ node, write node = entry) :
    stack.refill fresh write = stack.place entry := by
  unfold place refill
  rw [h]

/-- Placing an entry and pushing it agree on the live part: the contents of a spare node
are gone the moment it is written over. -/
theorem place_eq_push (stack : Stack α) (entry : α) :
    (stack.place entry).map Stack.live = (stack.push entry).map Stack.live := by
  unfold place refill push
  cases stack.checkCapacity <;> rfl

end Stack

end Unwinding
