import Unwinding.Kind.Table

/-!
# The registry

The registry is the one table of kinds that all threads of a process share, with the
slots its programs use.
-/

namespace Unwinding

/-- The kinds of a process, and the slots that stand for them. -/
structure Registry where
  table : KindTable := .initial
  slots : Slots := {}
  deriving DecidableEq, Repr, Inhabited

namespace Registry

/-- One declaration as a program writes it: the slot, the slot of its parent, and what
is said of the kind. -/
structure Entry where
  slot : String
  parent : String
  declaration : Declaration
  deriving DecidableEq, Repr, Inhabited

/-- Declares a kind; the notices tell what the table had to do for it. -/
def declare (registry : Registry) (entry : Entry) :
    Except Error (Kind × Registry × List Notice) :=
  match registry.table.register registry.slots entry.slot entry.parent entry.declaration
    with
  | .ok done => .ok (done.value, ⟨done.table, done.slots⟩, done.notices)
  | .error e => .error e

/-- Declares a list of kinds in order, passing over those that are refused. -/
def ofEntries (entries : List Entry) : Registry :=
  entries.foldl (fun registry entry =>
    match registry.declare entry with
    | .ok (_, next, _) => next
    | .error _ => registry) {}

/-- The registry, closed to further declarations. -/
def sealed (registry : Registry) : Registry :=
  { registry with table := registry.table.sealed }

/-- The kind a reference stands for, or the error for an empty slot. -/
def resolve (registry : Registry) (ref : KindRef) : Except Error Kind :=
  match ref.resolve? registry.slots with
  | some kind => .ok kind
  | none => .error .kindNotRegistered

/-- Whether an exception of a kind is answered by a reference. References that stand for
nothing answer none. -/
def fits (registry : Registry) (kind : Kind) (ref : KindRef) : Bool :=
  match ref.resolve? registry.slots with
  | none => false
  | some ancestor =>
      match registry.table.isA kind ancestor with
      | .ok answer => answer
      | .error _ => false

/-- Ancestry between two references, resolved from left to right. -/
def isA (registry : Registry) (candidate ancestor : KindRef) : Except Error Bool := do
  let candidate ← registry.resolve candidate
  let ancestor ← registry.resolve ancestor
  registry.table.isA candidate ancestor

end Registry

end Unwinding
