import Unwinding.Kind
import Unwinding.Stack

/-!
# Configuration

What a process decides once for all its threads: how large the stacks of a thread may
grow, how many nodes they keep from the start, how long a message may be, which kind
reports an abandoned region, and what ends a thread that cannot go on.
-/

namespace Unwinding

/-- The capacities of the five stacks of a thread. -/
structure Limits where
  regions : Nat := 256
  dispatch : Nat := 256
  guards : Nat := 256
  frames : Nat := 1024
  exceptions : Nat := 64
  deriving DecidableEq, Repr, Inhabited

namespace Limits

/-- One capacity for all stacks. -/
def uniform (limit : Nat) : Limits :=
  ⟨limit, limit, limit, limit, limit⟩

/-- The capacities in the display order of the stacks. -/
def toList (limits : Limits) : List Nat :=
  [limits.regions, limits.dispatch, limits.guards, limits.frames, limits.exceptions]

/-- A change to some capacities: first all of them, then single ones. -/
structure Change where
  uniform : Option Nat := none
  regions : Option Nat := none
  dispatch : Option Nat := none
  guards : Option Nat := none
  frames : Option Nat := none
  exceptions : Option Nat := none

/-- The capacities after a change: those that it names are new, and the others stay. -/
def apply (limits : Limits) (change : Change) : Limits :=
  let base := (change.uniform.map uniform).getD limits
  { regions := change.regions.getD base.regions
    dispatch := change.dispatch.getD base.dispatch
    guards := change.guards.getD base.guards
    frames := change.frames.getD base.frames
    exceptions := change.exceptions.getD base.exceptions }

/-- How limits present themselves to a programmer who looks at them. -/
def debugText (limits : Limits) : String :=
  s!"StackLimits \x7b regions: {limits.regions}, dispatch: {limits.dispatch}, " ++
    s!"guards: {limits.guards}, frames: {limits.frames}, " ++
    s!"exceptions: {limits.exceptions} \x7d"

end Limits

/-- What happens to a thread that cannot go on. -/
inductive Terminator where
  /-- The thread unwinds, which a program may stop; a thread that unwinds already stops
  for good. -/
  | unwind
  /-- The thread stops for good; the process goes on. -/
  | halt
  /-- The process ends, after the history of its threads has been handed out. -/
  | exit
  /-- The process ends at once. -/
  | exitSilently
  deriving DecidableEq, Repr, Inhabited

/-- The decisions of a process. -/
structure Config where
  limits : Limits := {}
  /-- The number of nodes each stack keeps from the start. -/
  preallocate : Nat := 16
  /-- The number of bytes a message may have. -/
  messageLimit : Nat := 1024
  /-- The slot of the kind that reports an abandoned region, if it is not the usual
  one. -/
  escapeKind : Option String := none
  terminator : Terminator := .exitSilently
  deriving DecidableEq, Repr, Inhabited

namespace Config

/-! ## Memory -/

/-- The largest piece of memory that can be asked for, in bytes. -/
def largestRequest : Nat := 0x7FFFFFFFFFFFFFFF

/-- The bytes of a region mark, the first kind of node that a context lays out in
advance. -/
def regionBytes : Nat := 96

/-- Whether the pieces of memory that a context takes at its start are none too large to
be asked for: its nodes, and the room for a message. -/
def fitsMemory (config : Config) : Bool :=
  config.preallocate * regionBytes ≤ largestRequest && config.messageLimit ≤
    largestRequest

/-! ## Presets -/

/-- Small stacks and short messages. -/
def compact : Config :=
  { limits := .uniform 32, preallocate := 4, messageLimit := 256 }

/-- Room for deep recursion. -/
def deep : Config :=
  { limits := { Limits.uniform 4096 with frames := 16384 }, preallocate := 64 }

/-- How a configuration presents itself to a programmer who looks at it. -/
def debugText (config : Config) (slots : Slots) : String :=
  let escape :=
    match config.escapeKind with
    | some slot => s!"Some({slots.debugText slot})"
    | none => "None"
  s!"RuntimeConfig \x7b limits: {config.limits.debugText}, " ++
    s!"preallocate: {config.preallocate}, " ++
    s!"message_limit: {config.messageLimit}, escape_kind: {escape}, .. \x7d"

end Config

end Unwinding
