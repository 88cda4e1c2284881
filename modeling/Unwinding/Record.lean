import Unwinding.Frame
import Unwinding.Kind.Registry

/-!
# Exception records

While an exception travels, a record of it lies on a stack of the thread. Copying the
call trace at every raise would be wasteful, so a fresh record only remembers how deep
the frame stack was (`Trace.live`); the frames are copied (`Trace.owned`) when some of
them are about to go away. `Record.toException` is what a record means: the exception
that the rest of the program sees, with its frames.

## Main results

* `toException_detach` — copying the frames does not change the meaning of a record.
-/

namespace Unwinding

/-- Where the frames of a record are.

A depth is as good as the frames themselves as long as the oldest so many frames stay,
and most exceptions are caught before any of them goes. -/
inductive Trace where
  /-- They are the oldest so many frames of the thread's own stack. -/
  | live (depth : Nat)
  /-- They were copied, oldest first. -/
  | owned (frames : List Frame)
  deriving DecidableEq, Repr

instance : Inhabited Trace :=
  ⟨.owned []⟩

/-- An exception as the program sees it: what was raised, where, and the calls it was
raised in, oldest first. -/
structure Exception where
  kind : Kind
  message : String
  origin : Site
  frames : List Frame
  deriving DecidableEq, Repr, Inhabited

namespace Exception

/-- The origin and the calls around it, innermost first. -/
def traceText (exception : Exception) : String :=
  Frame.lines (⟨exception.origin, ""⟩ :: exception.frames.reverse)

/-- The one-line form of an exception. -/
def text (exception : Exception) (table : KindTable) : String :=
  s!"{table.name exception.kind}: {exception.message}"

end Exception

/-- An exception on the stack of the thread.

A node of the record stack is used again for later exceptions, which write over all of
its fields. -/
structure Record where
  kind : Kind
  message : String
  origin : Site
  trace : Trace
  deriving DecidableEq, Repr, Inhabited

namespace Record

/-- Writes an exception over a node that may have been the record of another one, field
by field. -/
def reset (record : Record) (kind : Kind) (message : String) (origin : Site)
    (depth : Nat) : Record :=
  { record with
    kind
    message
    origin :=
      { record.origin with
        file := origin.file
        line := origin.line
        function := origin.function }
    trace := .live depth }

/-- A record that is used again has nothing left of what it was used for before. -/
theorem reset_eq (record : Record) (kind : Kind) (message : String) (origin : Site)
    (depth : Nat) :
    record.reset kind message origin depth = ⟨kind, message, origin, .live depth⟩ := rfl

/-- The frames of a record, oldest first. -/
def frames (record : Record) (frames : Frames) : List Frame :=
  match record.trace with
  | .live depth => frames.snapshot depth
  | .owned copied => copied

/-- What a record means against the frame stack it points into. -/
def toException (record : Record) (frames : Frames) : Exception :=
  ⟨record.kind, record.message, record.origin, record.frames frames⟩

/-- The record of an exception that comes from elsewhere: its frames are its own. -/
def ofException (exception : Exception) : Record :=
  ⟨exception.kind, exception.message, exception.origin, .owned exception.frames⟩

/-- Whether a record points into the frames above a depth. -/
def reachesAbove (record : Record) (depth : Nat) : Bool :=
  match record.trace with
  | .live anchor => depth < anchor
  | .owned _ => false

/-- The same record with its frames copied. -/
def detach (record : Record) (frames : Frames) : Record :=
  { record with trace := .owned (record.frames frames) }

/-- A record that takes a copy of its frames means what it meant. -/
theorem toException_detach (record : Record) (frames : Frames) :
    (record.detach frames).toException frames = record.toException frames := rfl

end Record

/-- The exception stack of a thread. -/
abbrev Records := Stack Record

namespace Records

/-- A record stack with nodes for a number of records. -/
def new (limit preallocate : Nat) : Records :=
  (Stack.empty "exceptions" limit).reserve preallocate default

/-- Puts a fresh record on top, which points into the live frames. -/
def raise (records : Records) (kind : Kind) (message : String) (origin : Site)
    (frames : Frames) :
    Except Error Records :=
  records.refill default fun record => record.reset kind message origin frames.depth

/-- To raise is to place a record that refers to the frames that are live now. -/
theorem raise_eq_place (records : Records) (kind : Kind) (message : String)
    (origin : Site) (frames : Frames) :
    records.raise kind message origin frames =
      records.place ⟨kind, message, origin, .live frames.depth⟩ :=
  records.refill_eq_place default fun record => record.reset_eq kind message origin
    frames.depth

/-- It lies on top of all others. -/
theorem live_raise {records raised : Records} {kind : Kind} {message : String}
    {origin : Site} {frames : Frames}
    (h : records.raise kind message origin frames = .ok raised) :
    raised.live = ⟨kind, message, origin, .live frames.depth⟩ :: records.live :=
  (Stack.live_place (records.raise_eq_place kind message origin frames ▸ h)).1

/-- Puts the record of an exception from elsewhere on top. -/
def readmit (records : Records) (exception : Exception) : Except Error Records :=
  records.push (.ofException exception)

/-- Releases the records from a depth on, except one, which moves down to that depth.

The record that is kept is taken off with its node and pushed again at the depth, so the
stack has as many nodes as before and holds at most as many entries. -/
def keepOnly (records : Records) (depth index : Nat) : Except Error Records :=
  if index < depth ∨ records.depth ≤ index then
    .error (.corrupted (.recordOutside index depth records.depth))
  else do
    let (kept, rest) ← (records.truncate (index + 1)).take
    (rest.truncate depth).push kept

/-- Copies the frames of every record that points above a depth, so that those frames
may go away. -/
def detachAbove (records : Records) (depth : Nat) (frames : Frames) : Records :=
  records.map fun record => if record.reachesAbove depth then record.detach frames else
    record

end Records

end Unwinding
