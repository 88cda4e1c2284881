import Unwinding.Kind.Registry

/-!
# Registration, write by write

`KindTable.register` says at once what a registration makes of a table and of the slots.
Where tables lie in memory it is a sequence of writes: a place is added, a slot is
filled, and a place that was provided for a child receives its name, its message, its
parent and its standing one after the other. An error that comes between two writes
leaves what has been written so far, so `EStateM` keeps the archive on both outcomes.

An archive holds any number of tables, which share their slots. A slot remembers a
number and not the table that gave it.
-/

namespace Unwinding

/-- A place of a table as it is written. The name and the message are written once: a
later text is not taken. -/
structure KindCells where
  parent : Kind
  name : Option String
  message : Option String
  provisional : Bool
  deriving DecidableEq, Repr, Inhabited

namespace KindCells

/-- A new place; it is provisional if it comes without a name. -/
def fresh (parent : Kind) (name message : Option String) : KindCells :=
  ⟨parent, name, message, name.isNone⟩

/-- Writes the name of a kind, which was empty. -/
def writeName (text : String) (cells : KindCells) : KindCells :=
  { cells with name := cells.name.or (some text) }

/-- Writes the default message of a kind, which was empty. -/
def writeMessage (text : String) (cells : KindCells) : KindCells :=
  { cells with message := cells.message.or (some text) }

/-- Writes the parent of a kind, over the place that stood for its own root. -/
def writeParent (parent : Kind) (cells : KindCells) : KindCells :=
  { cells with parent }

/-- The place is complete from now on. -/
def confirm (cells : KindCells) : KindCells :=
  { cells with provisional := false }

/-- What the cells say. -/
def entry (cells : KindCells) : KindEntry where
  parent := cells.parent
  declaration :=
    if cells.provisional then none else
    some ⟨cells.name.getD "<unnamed>", cells.message.getD ""⟩

end KindCells

/-- A table of kinds as it is written. -/
structure KindSheet where
  places : List KindCells
  isSealed : Bool := false
  deriving DecidableEq, Repr, Inhabited

namespace KindSheet

/-- The sheet of a table before any declaration: two placeholders and the kinds of the
runtime itself, each a root. -/
def initial : KindSheet where
  places := [
    .fresh ⟨0⟩ (some "<fell-through>") none,
    .fresh ⟨1⟩ (some "<forwarded>") none,
    .fresh .illegalEscape (some "IllegalEscape")
      (some "control left a protected region without closing it"),
    .fresh .stackExhausted (some "StackExhausted")
      (some "a runtime stack exceeded its capacity"),
    .fresh .stackCorrupted (some "StackCorrupted")
      (some "a runtime stack underflowed or lost its balance")]

/-- The table that a sheet holds. -/
def table (sheet : KindSheet) : KindTable where
  entries := sheet.places.map KindCells.entry
  isSealed := sheet.isSealed

/-- The cells of a kind; placeholders have none. -/
def cells (sheet : KindSheet) (kind : Kind) : Except Error KindCells :=
  if kind.id < Kind.placeholders then
    .error (.kindOutOfBounds kind.id)
  else
    match sheet.places[kind.id]? with
    | some cells => .ok cells
    | none => .error (.kindOutOfBounds kind.id)

end KindSheet

/-- Tables of kinds, by number, and the slots that they share.

A slot belongs to no table in particular. It holds a bare number, which any table can
read as one of its own. -/
structure Archive where
  sheets : Nat → KindSheet := fun _ => .initial
  slots : Slots := {}

namespace Archive

/-- A table of the archive with the slots, as a registry. -/
def registry (archive : Archive) (table : Nat) : Registry where
  table := (archive.sheets table).table
  slots := archive.slots

/-- A piece of work on an archive: it may fail, with what it has written so far. -/
abbrev Work := EStateM Error Archive

/-! ## Single writes -/

/-- The archive with another sheet for one of its tables. -/
def put (archive : Archive) (table : Nat) (sheet : KindSheet) : Archive :=
  { archive with
    sheets := fun other => if other = table then sheet else archive.sheets other }

/-- The table that is written holds what was written. -/
@[simp] theorem sheets_put_self (archive : Archive) (table : Nat) (sheet : KindSheet) :
    (archive.put table sheet).sheets table = sheet :=
  if_pos rfl

/-- The other tables hold what they held. -/
theorem sheets_put_of_ne {table other : Nat} (h : other ≠ table) (archive : Archive)
    (sheet : KindSheet) :
    (archive.put table sheet).sheets other = archive.sheets other :=
  if_neg h

/-- Rewrites the sheet of one table. -/
def onSheet (table : Nat) (f : KindSheet → KindSheet) : Work Unit :=
  modify fun archive => archive.put table (f (archive.sheets table))

/-- Rewrites the cells of one place of a table. -/
def onCells (table : Nat) (kind : Kind) (write : KindCells → KindCells) : Work Unit :=
  onSheet table fun sheet => { sheet with places := sheet.places.modify kind.id write }

/-- Fills a slot, as the last write of a registration: from then on the slot stands for
the kind. -/
def fillSlot (slot : String) (kind : Kind) : Work Unit :=
  modify fun archive => { archive with slots := archive.slots.fill slot kind }

/-- Adds a place at the end of a table; without a parent it is a root. -/
def addPlace (table : Nat) (parent : Option Kind) (name message : Option String) :
    Work Kind := do
  let kind : Kind := ⟨((← get).sheets table).places.length⟩
  onSheet table fun sheet =>
    { sheet with places := sheet.places ++ [.fresh (parent.getD kind) name message] }
  return kind

/-- Gives the next place of a table to a slot. -/
def assign (table : Nat) (slot : String) (parent : Option Kind)
    (name message : Option String) : Work Kind := do
  let kind ← addPlace table parent name message
  fillSlot slot kind
  return kind

/-- The cells of a kind, or the error for a kind that the table does not have. -/
def readCells (table : Nat) (kind : Kind) : Work KindCells := do
  match ((← get).sheets table).cells kind with
  | .ok cells => return cells
  | .error e => throw e

/-! ## Registrations -/

/-- The kind that a parent slot stands for, none when a kind is declared to be its own
parent. An empty parent slot is given a provisional root. -/
def resolveParent (table : Nat) (slot parent : String) : Work (Option Kind) := do
  if slot = parent then
    return none
  else
    match (← get).slots.get? parent with
    | some kind =>
        let _ ← readCells table kind
        return some kind
    | none =>
        let kind ← assign table parent none none none
        return some kind

/-- Writes a declaration and a parent into the place of a provisional kind, cell by
cell. -/
def completePlace (table : Nat) (kind parent : Kind) (declaration : Declaration) :
    Work Unit := do
  onCells table kind (.writeName declaration.name)
  onCells table kind (.writeMessage declaration.message)
  onCells table kind (.writeParent parent)
  onCells table kind .confirm

/-- Declares the kind of a slot in a table. -/
def register (table : Nat) (entry : Registry.Entry) : Work Kind := do
  if ((← get).sheets table).isSealed then
    throw (.kindTableSealed entry.declaration.name)
  else
    match (← get).slots.get? entry.slot with
    | some kind =>
        let cells ← readCells table kind
        if cells.provisional then
          let parent ← resolveParent table entry.slot entry.parent
          completePlace table kind (parent.getD kind) entry.declaration
          return kind
        else
          return kind
    | none =>
        let parent ← resolveParent table entry.slot entry.parent
        assign table entry.slot parent (some entry.declaration.name)
          (some entry.declaration.message)

/-! ## Sequences of calls -/

/-- A call to one of the tables. -/
inductive Call
  | register (table : Nat) (entry : Registry.Entry)
  /-- Closes a table to further registrations. -/
  | close (table : Nat)
  deriving DecidableEq, Repr

/-- The archive after a call, with what a registration wrote before it failed. -/
def after (archive : Archive) : Call → Archive
  | .register table entry =>
      match register table entry archive with
      | .ok _ left => left
      | .error _ left => left
  | .close table => archive.put table { archive.sheets table with isSealed := true }

/-- What a sequence of calls makes of fresh tables and empty slots. -/
def run (calls : List Call) : Archive :=
  calls.foldl after {}

end Archive

end Unwinding
