import Unwinding.Depths
import Unwinding.Site

/-!
# Regions and the other marks of a thread

Four of the five stacks of a thread hold marks, defined here. A region is *protected* if
it has clauses that may catch an exception, and *explicit* if a program opens and closes
it by hand. What a handle remembers of its entry into a region is a `Visit`; the mark on
the region stack is that visit and the state the region is in.
-/

namespace Unwinding

/-- The life of a region. A protected region goes through `dispatching` while its body
runs, `matching` while its clauses are tried, and `handling` while one of its handlers
runs. -/
inductive RegionState where
  | outside
  | entered
  | dispatching
  | matching
  | handling
  | cleanup
  deriving DecidableEq, Repr, Inhabited

namespace RegionState

/-- The word for a state in what is shown of a region. -/
def name : RegionState → String
  | .outside => "Outside"
  | .entered => "Entered"
  | .dispatching => "Dispatching"
  | .matching => "Matching"
  | .handling => "Handling"
  | .cleanup => "Cleanup"

/-- Every state, in the order of a region's life. -/
def all : List RegionState :=
  [.outside, .entered, .dispatching, .matching, .handling, .cleanup]

end RegionState

/-- One entry into a region: which it was, where, how deep the stacks were just before
it, and whether the region is an explicit one. -/
structure Visit where
  id : Nat
  site : Site
  entry : Depths
  explicit : Bool
  deriving DecidableEq, Repr, Inhabited

/-- The mark of a region that has not been left. -/
structure Region where
  visit : Visit
  state : RegionState
  deriving DecidableEq, Repr, Inhabited

/-- A reason for a raise not to end the thread: the clauses of a region, or the shield
around a guard body, which also parks the record that was in flight when the body
began. -/
inductive Dispatch where
  | region (owner : Nat)
  | guard (owner : Nat) (parked : Option Nat)
  deriving DecidableEq, Repr, Inhabited

namespace Dispatch

/-- The region or guard scope that put the mark down. -/
def owner : Dispatch → Nat
  | .region owner => owner
  | .guard owner _ => owner

/-- Whether it is a guard body that put it down. -/
def isGuard : Dispatch → Bool
  | .region _ => false
  | .guard _ _ => true

end Dispatch

/-- The mark of a guard scope in which something has been registered. -/
structure ScopeMark where
  id : Nat
  site : Site
  deriving DecidableEq, Repr, Inhabited

/-- An explicit region that was abandoned, and the protected region that will report
it. -/
structure Escape where
  site : Site
  owner : Nat
  deriving DecidableEq, Repr, Inhabited

end Unwinding
