import Unwinding.Frame
import Unwinding.Kind
import Unwinding.Region

/-!
# Notices

What the runtime tells an observer about its own work. A notice is a cause, like an
error; its level and its words are functions of the cause, so that laws about the
history of a thread can speak of `regionMoved` and `escapeDropped` and not of text.
-/

namespace Unwinding

/-- How important a notice is. -/
inductive Level where
  | error
  | warn
  | info
  | debug
  | trace
  deriving DecidableEq, Repr, Inhabited

namespace Level

/-- The name of a level, as a log shows it. -/
def name : Level → String
  | .error => "ERROR"
  | .warn => "WARN"
  | .info => "INFO"
  | .debug => "DEBUG"
  | .trace => "TRACE"

/-- Zero for the most important level. -/
def rank : Level → Nat
  | .error => 0
  | .warn => 1
  | .info => 2
  | .debug => 3
  | .trace => 4

/-- An observer that asks for a level sees it and everything more important. -/
def shownAt (level threshold : Level) : Bool :=
  level.rank ≤ threshold.rank

end Level

/-- A message of the runtime, by cause. -/
inductive Notice where
  | initialized (kinds : Nat)
  | kindRegistered (kind : Kind) (name : String)
  | kindCompleted (kind : Kind) (name : String)
  /-- A parent was named before it was declared. -/
  | rootProvided (kind : Kind)
  | contextCreated
  | contextClosed
  | contextUnbalanced (depths : Depths) (dump : String)
  /-- A thread handle was dropped, and the shutdown failed. -/
  | closeFailed (error : Error)
  | regionMoved (id : Nat) (site : Site) (before after : RegionState)
  | regionUnclosed (site : Site) (changed : StackSet)
  | framesLeftOver (depth found : Nat) (innermost : Frame)
  | escapeRepeated (owner : Nat) (site : Site)
  | escapeReported (region escaped : Site)
  | escapeDropped (escaped region : Site)
  | fatal (error : Error)
  | uncaught (exception : String)

namespace Notice

/-- How important a notice is. What goes wrong in a program is a warning or an error,
and the course of a program is for tracing. -/
def level : Notice → Level
  | .initialized _ | .kindRegistered _ _ | .kindCompleted _ _ | .rootProvided _ =>
    .debug
  | .contextCreated | .contextClosed => .debug
  | .contextUnbalanced _ _ | .closeFailed _ => .error
  | .regionMoved _ _ _ _ => .trace
  | .regionUnclosed _ _ | .framesLeftOver _ _ _ | .escapeDropped _ _ => .warn
  | .escapeRepeated _ _ | .escapeReported _ _ => .debug
  | .fatal _ | .uncaught _ => .error

/-- The text of a notice, as a log shows it. -/
def text : Notice → String
  | .initialized kinds => s!"exscope initialized with {kinds} registered kinds"
  | .kindRegistered kind name => s!"registered kind {kind.text} '{name}'"
  | .kindCompleted kind name => s!"completed provisional kind {kind.text} as '{name}'"
  | .rootProvided kind =>
      s!"registered provisional root {kind.text} for an undeclared parent"
  | .contextCreated => "thread context created"
  | .contextClosed => "thread context shut down"
  | .contextUnbalanced depths dump =>
      s!"thread context shut down unbalanced ({depths.text})\n{dump}"
  | .closeFailed error => s!"thread context dropped without shutdown: {error.text}"
  | .regionMoved id site before after =>
      s!"region {id} at {site.text}: {before.name} -> {after.name}"
  | .regionUnclosed site changed =>
      s!"control left the region entered at {site.text} " ++
        s!"without closing it ({changed.text})"
  | .framesLeftOver depth found innermost =>
      s!"frame stack grew from {depth} to {found}, " ++
        s!"innermost leftover frame: {innermost.text}"
  | .escapeRepeated owner site =>
      s!"region {owner} already reports an escape, ignoring {site.text}"
  | .escapeReported region escaped =>
      s!"region at {region.text} reports an escape from {escaped.text}"
  | .escapeDropped escaped region =>
      s!"escape from the region entered at {escaped.text} dropped: " ++
        s!"the region at {region.text} exited by an exception"
  | .fatal error => s!"fatal runtime error: {error.text}"
  | .uncaught exception => s!"uncaught exception {exception}"

end Notice

end Unwinding
