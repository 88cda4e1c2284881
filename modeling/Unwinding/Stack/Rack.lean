import Unwinding.Stack

/-!
# Stacks, node by node

`Stack` says at once what an operation makes of the entries and of the spare nodes.
Where the nodes lie in memory they are moved one at a time, from one list to the other,
in or out: a node that has been taken off one list and not yet been put onto the other
is nowhere, and one that is put onto both is there twice. An error that comes between
two moves leaves the lists as they are then, so `EStateM` keeps the rack on both
outcomes.

A caller gets references to nodes and may write through them: to the newest entry, to
any entry, or to the node that was just popped. Such a write is a request of its own
here, which may come at any time.

A rack also counts how often a fresh node was made, which cannot be told from its lists.
-/

namespace Unwinding

/-- The nodes of a stack. -/
structure Rack (α : Type) where
  name : String
  limit : Nat
  /-- The entries, top first. -/
  used : List α := []
  /-- The nodes kept for later, next one first. -/
  unused : List α := []
  /-- How often a fresh node was made. -/
  made : Nat := 0

namespace Rack

variable {α : Type}

/-- What the nodes of a rack are on the whole: a stack. -/
def stack (rack : Rack α) : Stack α :=
  ⟨rack.name, rack.limit, rack.used, rack.unused, rack.used.length, rfl⟩

/-- A piece of work on a rack: it may fail, with what it has moved so far. -/
abbrev Work (α β : Type) := EStateM Error (Rack α) β

/-! ## Single moves -/

/-- Takes the top node off the entries, if there is one. -/
def popUsed : Work α (Option α) :=
  modifyGet fun rack =>
    match rack.used with
    | node :: used => (some node, { rack with used })
    | [] => (none, rack)

/-- Takes the next node off the nodes kept for later, if there is one. -/
def popUnused : Work α (Option α) :=
  modifyGet fun rack =>
    match rack.unused with
    | node :: unused => (some node, { rack with unused })
    | [] => (none, rack)

/-- A node is put with those in use. -/
def pushUsed (node : α) : Work α Unit :=
  modify fun rack => { rack with used := node :: rack.used }

/-- A node is put with those that are spare. -/
def pushUnused (node : α) : Work α Unit :=
  modify fun rack => { rack with unused := node :: rack.unused }

/-- Has a fresh node made. -/
def make (fresh : α) : Work α α :=
  modifyGet fun rack => (fresh, { rack with made := rack.made + 1 })

/-! ## Operations -/

/-- Refuses when the entries have reached the capacity. -/
def checkCapacity : Work α Unit := do
  let rack ← get
  if rack.limit ≤ rack.used.length then
    throw (.capacityExceeded rack.name rack.limit)

/-- Puts a node kept for later on top. -/
def allocSpare : Work α α := do
  checkCapacity
  match ← popUnused with
  | some node =>
      pushUsed node
      return node
  | none => throw (.exhausted (← get).name)

/-- Puts a node kept for later on top, or a fresh one if there is none. The flag tells
whether the fresh one was needed. -/
def alloc (fresh : α) : Work α (α × Bool) := do
  checkCapacity
  match ← popUnused with
  | some node =>
      pushUsed node
      return (node, false)
  | none =>
      let node ← make fresh
      pushUsed node
      return (node, true)

/-- Puts a node of the caller's on top. -/
def push (node : α) : Work α Unit := do
  checkCapacity
  pushUsed node

/-- Takes the top entry off; its node is kept for later. -/
def pop : Work α α := do
  match ← popUsed with
  | some node =>
      pushUnused node
      return node
  | none => throw (.stackUnderflow (← get).name)

/-- Takes the top entry off for good. -/
def take : Work α α := do
  match ← popUsed with
  | some node => return node
  | none => throw (.stackUnderflow (← get).name)

/-- Moves nodes over, one at a time, while there are more than `depth` entries, and
counts them. -/
def shed (depth removed : Nat) : List α → List α → Nat × List α × List α
  | node :: used, unused =>
      if depth < (node :: used).length then
        shed depth (removed + 1) used (node :: unused)
      else
        (removed, node :: used, unused)
  | [], unused => (removed, [], unused)

/-- Takes entries off until at most `depth` are left, and tells how many were taken
off. -/
def truncate (depth : Nat) : Work α Nat :=
  modifyGet fun rack =>
    let (removed, used, unused) := shed depth 0 rack.used rack.unused
    (removed, { rack with used, unused })

/-- Donates nodes, one after the other. -/
def grow (nodes : List α) : Work α Unit :=
  nodes.forM pushUnused

/-- Donates a number of equal nodes. -/
def reserve (count : Nat) (node : α) : Work α Unit :=
  grow (List.replicate count node)

/-! ## Writing to nodes -/

/-- Writes to the newest entry, if there is one. -/
def writeTop (f : α → α) : Work α Unit :=
  modify fun rack => { rack with used := rack.used.modifyHead f }

/-- Writes to the node that was popped last, if it is still kept. -/
def writeNext (f : α → α) : Work α Unit :=
  modify fun rack => { rack with unused := rack.unused.modifyHead f }

/-- Writes to the entry at an index counted from the bottom, if there is one. -/
def writeAt (index : Nat) (f : α → α) : Work α Unit :=
  modify fun rack =>
    if index < rack.used.length then
      { rack with used := rack.used.modify (rack.used.length - 1 - index) f }
    else
      rack

/-- Writes to every entry, told how far from the top it is. -/
def writeAll (f : Nat → α → α) : Work α Unit :=
  modify fun rack => { rack with used := rack.used.mapIdx f }

/-! ## Sequences of requests -/

/-- A call that changes a rack, or a write through a reference that a call has
returned. -/
inductive Request (α : Type) where
  | allocSpare
  | alloc (fresh : α)
  | push (node : α)
  | pop
  | truncate (depth : Nat)
  | take
  | grow (nodes : List α)
  | reserve (count : Nat) (node : α)
  | writeTop (f : α → α)
  | writeNext (f : α → α)
  | writeAt (index : Nat) (f : α → α)
  | writeAll (f : Nat → α → α)

/-- The answer to a request that has not failed. -/
inductive Reply (α : Type) where
  | done
  | node (node : α)
  /-- A node, and whether it is a fresh one. -/
  | allotted (node : α) (fresh : Bool)
  | count (removed : Nat)
  deriving DecidableEq, Repr

/-- What is done for a request. -/
def work : Request α → Work α (Reply α)
  | .allocSpare => return .node (← allocSpare)
  | .alloc fresh => do
      let (node, isFresh) ← alloc fresh
      return .allotted node isFresh
  | .push node => do
      push node
      return .node node
  | .pop => return .node (← pop)
  | .truncate depth => return .count (← truncate depth)
  | .take => return .node (← take)
  | .grow nodes => do
      grow nodes
      return .done
  | .reserve count node => do
      reserve count node
      return .done
  | .writeTop f => do
      writeTop f
      return .done
  | .writeNext f => do
      writeNext f
      return .done
  | .writeAt index f => do
      writeAt index f
      return .done
  | .writeAll f => do
      writeAll f
      return .done

/-- The rack after a request, with what was moved before it failed. -/
def after (rack : Rack α) (request : Request α) : Rack α :=
  match work request rack with
  | .ok _ left => left
  | .error _ left => left

/-- The rack after requests, in this order; one that fails does not keep the others from
being made. -/
def serve (rack : Rack α) (requests : List (Request α)) : Rack α :=
  requests.foldl after rack

end Rack

namespace Stack

variable {α : Type}

/-- What a stack makes of a request. -/
def perform (stack : Stack α) : Rack.Request α → Except Error (Rack.Reply α × Stack α)
  | .allocSpare => stack.allocSpare.map fun (node, next) => (.node node, next)
  | .alloc fresh =>
      (stack.alloc fresh).map fun (node, isFresh, next) =>
        (.allotted node isFresh, next)
  | .push node => (stack.push node).map fun next => (.node node, next)
  | .pop => stack.pop.map fun (node, next) => (.node node, next)
  | .truncate depth =>
      .ok (.count (stack.depth - (stack.truncate depth).depth), stack.truncate depth)
  | .take => stack.take.map fun (node, next) => (.node node, next)
  | .grow nodes => .ok (.done, stack.grow nodes)
  | .reserve count node => .ok (.done, stack.reserve count node)
  | .writeTop f => .ok (.done, stack.modifyTop f)
  | .writeNext f => .ok (.done, stack.modifySpare f)
  | .writeAt index f => .ok (.done, stack.modify index f)
  | .writeAll f => .ok (.done, stack.mapIdx f)

/-- The stack after a request; one that fails leaves it as it is. -/
def after (stack : Stack α) (request : Rack.Request α) : Stack α :=
  match stack.perform request with
  | .ok (_, next) => next
  | .error _ => stack

/-- The stack after requests, in this order. -/
def serve (stack : Stack α) (requests : List (Rack.Request α)) : Stack α :=
  requests.foldl after stack

end Stack

end Unwinding
