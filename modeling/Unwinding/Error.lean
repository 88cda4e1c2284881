import Unwinding.Depths
import Unwinding.Site

/-!
# Errors

What can go wrong in the bookkeeping of a thread, by cause. `Error.text` is the only
place where the wording of an error is decided; the causes of a corrupted state are a
type of their own, because most laws of the library say which of them cannot happen.
-/

namespace Unwinding

/-- Why a dispatch mark was pushed: for the clauses of a region, or to shield a guard
body. -/
inductive Purpose where
  | region
  | guard
  deriving DecidableEq, Repr, Inhabited

/-- The word that an error uses for the purpose of a mark. -/
def Purpose.name : Purpose → String
  | .region => "Region"
  | .guard => "Guard"

/-- The ways in which the stacks of a thread can contradict what a handle remembers of
them. -/
inductive Corruption where
  /-- Bookkeeping was asked for while a bookkeeping step of the same thread was in
  progress. -/
  | reentered
  /-- Frames are missing that were there when the handle was opened. -/
  | framesShrank (expected found : Nat)
  /-- The record in flight does not lie among the records that may be kept. -/
  | recordOutside (index depth count : Nat)
  | regionNotInnermost (id : Nat) (site : Site) (innermost : Nat) (innermostSite : Site)
  | regionMissing (id : Nat) (site : Site)
  /-- An exception arrived at a region, but no record is in flight. -/
  | noRecord (site : Site)
  | recordBeyond (index : Nat)
  | dispatchMismatch (purpose : Purpose) (owner : Nat) (found : Purpose)
      (foundOwner : Nat)
  | regionUnbalanced (site : Site) (entry exit : Depths)
  | callUnbalanced (entry exit : Depths)
  /-- An explicit region was abandoned where no protected region can report it. -/
  | escapeUnreported (site : Site)
  | scopeNotInnermost (site : Site)
  /-- A guard body was left by an exception or a panic. -/
  | guardBodyFailed (site : Site) (reason : String)
  /-- A corruption reported from a place in a program, in that program's words. -/
  | reported (file : String) (line : Nat) (message : String)
  deriving DecidableEq, Repr

namespace Corruption

/-- What a corruption says. Each text names the place that the program can look for, and
what was found in place of what was expected. -/
def text : Corruption → String
  | .reentered => "thread context re-entered"
  | .framesShrank expected found => s!"frame stack shrank from {expected} to {found}"
  | .recordOutside index depth count =>
      s!"in-flight record {index} outside of {depth}..{count}"
  | .regionNotInnermost id site innermost innermostSite =>
      s!"region {id} at {site.text} is not innermost, " ++
        s!"found region {innermost} at {innermostSite.text}"
  | .regionMissing id site =>
      s!"region {id} at {site.text} is missing from the region stack"
  | .noRecord site => s!"region at {site.text} caught an exception with no record"
  | .recordBeyond index => s!"in-flight record {index} is beyond the exception stack"
  | .dispatchMismatch purpose owner found foundOwner =>
      s!"dispatch mark of {purpose.name} {owner} expected, " ++
        s!"found {found.name} {foundOwner}"
  | .regionUnbalanced site entry exit =>
      s!"region at {site.text} left unbalanced stacks " ++
        s!"({(exit.mismatches entry).text}): " ++
        s!"entry {entry.text}, exit {exit.text}"
  | .callUnbalanced entry exit =>
      s!"traced call returned with unbalanced stacks " ++
        s!"({(exit.mismatches entry).text}): " ++
        s!"entry {entry.text}, exit {exit.text}"
  | .escapeUnreported site =>
      s!"illegal escape from the region entered at {site.text} " ++
        s!"with no protected region to report it"
  | .scopeNotInnermost site => s!"guard scope at {site.text} is not innermost"
  | .guardBodyFailed site reason =>
      s!"guard body registered at {site.text} did not complete: {reason}"
  | .reported file line message => s!"{file}:{line}: {message}"

end Corruption

/-- What a bookkeeping operation can fail with. -/
inductive Error where
  | capacityExceeded (stack : String) (limit : Nat)
  | stackUnderflow (stack : String)
  /-- A stack was asked for a node from its spare ones, and had none. -/
  | exhausted (stack : String)
  | corrupted (cause : Corruption)
  | kindOutOfBounds (id : Nat)
  | kindTableSealed (name : String)
  | kindNotRegistered
  | alreadyInitialized
  | contextMissing
  | contextActive
  /-- A context was shut down while entries were live; the text names the stacks. -/
  | unbalanced (live : String)
  | lockFailed
  deriving DecidableEq, Repr

namespace Error

/-- The text of an error, as a caller reads it and as a report of a termination
begins. -/
def text : Error → String
  | .capacityExceeded stack limit =>
    s!"Stack '{stack}' exceeded its capacity of {limit} entries"
  | .stackUnderflow stack => s!"Stack '{stack}' underflow - pop on an empty stack"
  | .exhausted stack => s!"Stack '{stack}' has no spare nodes"
  | .corrupted cause => s!"Corrupted - {cause.text}"
  | .kindOutOfBounds id => s!"Exception kind {id} is not in the kind table"
  | .kindTableSealed name => s!"The kind table is sealed - cannot register '{name}'"
  | .kindNotRegistered => "Exception kind slot was used before registration"
  | .alreadyInitialized => "The runtime has already been initialized"
  | .contextMissing => "No runtime context on this thread"
  | .contextActive => "A runtime context already exists on this thread"
  | .unbalanced live => s!"Thread context shut down with live entries on: {live}"
  | .lockFailed => "Failed to lock target"

end Error

end Unwinding
