import Unwinding.Error

/-!
# Kinds of exception, and the slots that name them

A kind is a number in a table of kinds. Programs do not write numbers: they hold
*slots*, variables that are empty until the kind they stand for is registered. A slot is
filled once, so everything that was written with it before the registration means the
registered kind afterwards.
-/

namespace Unwinding

/-- A kind of exception, by its place in a table of kinds.

Places are natural numbers here. The table of a process counts them in 32 bits and its
entries in memory, so it would have to hold four thousand million kinds before the two
differ. -/
structure Kind where
  id : Nat
  deriving DecidableEq, Repr, Inhabited

namespace Kind

/-- The first places of every table stand for no exception: a region left normally, and
one whose exception went on to the region around it. -/
def placeholders : Nat := 2

/-- Control left an explicit region that was never closed. -/
def illegalEscape : Kind := ⟨2⟩

/-- A stack of the thread reached its capacity. -/
def stackExhausted : Kind := ⟨3⟩

/-- The stacks of the thread contradict what a handle remembers of them. -/
def stackCorrupted : Kind := ⟨4⟩

/-- The first kind that a program registers. -/
def firstDeclared : Nat := 5

/-- The kind at a place of the table, unless the place is a placeholder. -/
def ofId? (id : Nat) : Option Kind :=
  if id < placeholders then none else some ⟨id⟩

/-- The kind that a number stands for where every number has to stand for one: all
placeholders are the first of them, which no table answers for. -/
def ofId (id : Nat) : Kind :=
  (ofId? id).getD ⟨0⟩

/-- Kinds that every table has and no program registers. -/
def isReserved (kind : Kind) : Bool :=
  kind.id < firstDeclared

/-- How a kind is written where its table is not at hand. -/
def text (kind : Kind) : String :=
  s!"#{kind.id}"

end Kind

/-- The contents of the slots, by name; a slot without an entry is empty. -/
structure Slots where
  filled : List (String × Kind) := []
  deriving DecidableEq, Repr, Inhabited

namespace Slots

/-- The kind a slot stands for, if it is registered. -/
def get? (slots : Slots) (slot : String) : Option Kind :=
  slots.filled.lookup slot

/-- Fills a slot. A slot is filled once, so nothing is said of what it held. -/
def fill (slots : Slots) (slot : String) (kind : Kind) : Slots :=
  ⟨(slot, kind) :: slots.filled⟩

/-- A slot that is filled stands for the kind it is filled with. -/
@[simp] theorem get?_fill_self (slots : Slots) (slot : String) (kind : Kind) :
    (slots.fill slot kind).get? slot = some kind := by
  simp [get?, fill]

/-- The other slots stand for what they stood for. -/
theorem get?_fill_of_ne (slots : Slots) {slot other : String} (kind : Kind)
    (h : other ≠ slot) :
    (slots.fill slot kind).get? other = slots.get? other := by
  have hne : (other == slot) = false := by simp [h]
  simp only [get?, fill, List.lookup_cons, hne]

/-- How a slot presents itself to a programmer who looks at it. -/
def debugText (slots : Slots) (slot : String) : String :=
  match slots.get? slot with
  | some kind => s!"KindSlot(ErrorKind({kind.id}))"
  | none => "KindSlot(<unregistered>)"

end Slots

/-- A way to name a kind: by a slot, which may still be empty, or directly. -/
inductive KindRef where
  | slot (name : String)
  | direct (kind : Kind)
  deriving DecidableEq, Repr

/-- The kind a reference stands for at this moment. -/
def KindRef.resolve? (slots : Slots) : KindRef → Option Kind
  | .slot name => slots.get? name
  | .direct kind => some kind

end Unwinding
