/-!
# Depths of the five stacks

A thread keeps five stacks. This module names them, and compares the number of entries
they held at two moments. `Depths.mismatches` is the set of stacks that differ, and
`Depths.occupied` the set of stacks that hold anything; both are sets of stack names
with a fixed order of display.
-/

namespace Unwinding

/-- The five stacks of a thread, in the order in which they are listed everywhere. -/
inductive StackKind where
  | regions
  | dispatch
  | guards
  | frames
  | exceptions
  deriving DecidableEq, Repr, Inhabited

namespace StackKind

/-- Every stack, in display order. -/
def all : List StackKind :=
  [.regions, .dispatch, .guards, .frames, .exceptions]

/-- Every kind of stack is in the list that texts and numbers are made from. -/
theorem mem_all (kind : StackKind) : kind ∈ all := by
  cases kind <;> decide

/-- The name of a stack in texts and errors. -/
def name : StackKind → String
  | .regions => "regions"
  | .dispatch => "dispatch"
  | .guards => "guards"
  | .frames => "frames"
  | .exceptions => "exceptions"

/-- The place of a stack in the display order, which is also its place in a bit set. -/
def index : StackKind → Nat
  | .regions => 0
  | .dispatch => 1
  | .guards => 2
  | .frames => 3
  | .exceptions => 4

/-- The bit that stands for a stack in a set written as a number. -/
def bit (kind : StackKind) : Nat :=
  1 <<< kind.index

end StackKind

/-- A set of stacks, given by membership. -/
structure StackSet where
  contains : StackKind → Bool

namespace StackSet

/-- Whether no stack is in the set. -/
def isEmpty (set : StackSet) : Bool :=
  StackKind.all.all fun kind => !set.contains kind

/-- The members in display order. -/
def toList (set : StackSet) : List StackKind :=
  StackKind.all.filter set.contains

/-- The set written as a number, one bit for each member. -/
def bits (set : StackSet) : Nat :=
  set.toList.foldl (fun bits kind => bits ||| kind.bit) 0

/-- The set that a number stands for; bits of no stack are left out. -/
def ofBits (bits : Nat) : StackSet where
  contains kind := bits.testBit kind.index

/-- The names of the members, separated by commas. -/
def text (set : StackSet) : String :=
  ", ".intercalate (set.toList.map StackKind.name)

/-- The list of a set has just the members of the set. -/
theorem mem_toList {set : StackSet} {kind : StackKind} :
    kind ∈ set.toList ↔ set.contains kind = true := by
  simp [toList, StackKind.mem_all]

/-- A set is empty just if it contains no kind of stack. -/
theorem isEmpty_iff {set : StackSet} :
    set.isEmpty = true ↔ ∀ kind, set.contains kind = false := by
  simp [isEmpty, StackKind.mem_all]

end StackSet

/-- The number of entries on each stack at one moment. -/
structure Depths where
  regions : Nat := 0
  dispatch : Nat := 0
  guards : Nat := 0
  frames : Nat := 0
  exceptions : Nat := 0
  deriving DecidableEq, Repr, Inhabited

namespace Depths

/-- The depth of one of the stacks. -/
def get (depths : Depths) : StackKind → Nat
  | .regions => depths.regions
  | .dispatch => depths.dispatch
  | .guards => depths.guards
  | .frames => depths.frames
  | .exceptions => depths.exceptions

/-- The stacks whose depths differ between two moments. -/
def mismatches (now before : Depths) : StackSet where
  contains kind := now.get kind != before.get kind

/-- The stacks that hold at least one entry. -/
def occupied (depths : Depths) : StackSet :=
  depths.mismatches {}

/-- Whether nothing is on any stack. A context that is closed in this state was used in
balance. -/
def isEmpty (depths : Depths) : Bool :=
  depths == {}

/-- The depths in display order. -/
def toList (depths : Depths) : List Nat :=
  StackKind.all.map depths.get

/-- The five depths as one text, in display order. -/
def text (depths : Depths) : String :=
  " ".intercalate
    (StackKind.all.map fun kind => kind.name ++ "=" ++ toString (depths.get kind))

/-- Depths that are the same stack by stack are the same. -/
theorem ext_get {a b : Depths} (h : ∀ kind, a.get kind = b.get kind) : a = b := by
  cases a
  cases b
  have h1 := h .regions
  have h2 := h .dispatch
  have h3 := h .guards
  have h4 := h .frames
  have h5 := h .exceptions
  simp_all [get]

/-- Two moments agree on every stack exactly when no stack is a mismatch. -/
theorem mismatches_isEmpty {now before : Depths} :
    (now.mismatches before).isEmpty = true ↔ now = before := by
  rw [StackSet.isEmpty_iff]
  constructor
  · intro h
    exact ext_get fun kind => by simpa [mismatches] using h kind
  · rintro rfl kind
    simp [mismatches]

end Depths

end Unwinding
