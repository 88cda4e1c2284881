import Unwinding.Notice
import Unwinding.Program
import Unwinding.Record

/-!
# Events

The history of a thread is a list of events: what its statements answered, which clauses
caught what, what stopped where, and every notice of the runtime. A run records all of
them; an observer chooses a part (`Watch.shows`).
-/

namespace Unwinding

/-- Why a thread could not go on. -/
inductive TerminationKind where
  /-- Nothing caught an exception. -/
  | uncaught
  /-- The bookkeeping failed. -/
  | fatal
  deriving DecidableEq, Repr, Inhabited

/-- The word that a report uses for how a thread was terminated. -/
def TerminationKind.name : TerminationKind → String
  | .uncaught => "Uncaught"
  | .fatal => "Fatal"

/-- The end of a thread that could not go on. -/
structure Termination where
  kind : TerminationKind
  error : Kind
  report : String
  deriving DecidableEq, Repr, Inhabited

/-- What unwinds a thread: a raise of the runtime, a panic of the program, or a
termination. -/
inductive Payload where
  | raise
  | panic (text : Option String)
  | termination (termination : Termination)
  deriving DecidableEq, Repr, Inhabited

/-- An exception as events show it, with the name its kind has at that moment. -/
structure ExceptionView where
  exception : Exception
  name : String
  deriving DecidableEq, Repr, Inhabited

namespace ExceptionView

/-- What a program that holds an exception can see of it, with its name looked up in a
table of kinds. -/
def of (table : KindTable) (exception : Exception) : ExceptionView :=
  ⟨exception, table.name exception.kind⟩

/-- The one-line form of the exception. -/
def text (view : ExceptionView) : String :=
  s!"{view.name}: {view.exception.message}"

end ExceptionView

/-- What a thread can be asked about itself at any moment. -/
structure ThreadState where
  initialized : Bool
  poisoned : Bool
  depths : Except Error Depths
  trace : String
  current : Option ExceptionView
  panicking : Bool

/-- What a handle shows of itself. -/
inductive Inspection where
  | text (debug : String)
  | scope (debug : String) (length : Nat)
  | call (entry : Depths)
  deriving DecidableEq, Repr

/-- One step of the history of a thread. -/
inductive Event (ν : Type) where
  | notice (notice : Notice)
  /-- A statement has completed, with the stacks as deep as this. -/
  | after (word : String) (depths : Except Error Depths)
  | terminated (termination : Termination)
  | depths (depths : Except Error Depths)
  | state (state : ThreadState)
  | say (text : String)
  | trace (text : String)
  | current (view : Option ExceptionView)
  | annotated (done : Bool)
  /-- A variable that holds no exception was to be raised again. -/
  | nothingToRethrow
  | exception (view : Option ExceptionView)
  | exceptionIsA (answer : Option Bool)
  | caught (view : ExceptionView) (clause : Nat)
  /-- A protected region was left with a value. -/
  | result (value : Option ν)
  | fulfilled (value : Option ν)
  | unmatched (view : ExceptionView)
  | completed (value : Option ν)
  | unwound (payload : Payload)
  | openFailed (error : Error)
  | shutdown (outcome : Except Error Unit)
  | registered (length : Nat)
  | inspected (inspection : Inspection)
  | configured (outcome : Except Error Unit)
  | declared (outcome : Except Error Kind)
  | isA (answer : Except Error Bool)
  | kinds (rows : List (Kind × KindEntry))

/-- What an observer of a history asks for beside the answers of the statements. -/
structure Watch where
  /-- The least important notices to see; none at all without one. -/
  level : Option Level := none
  /-- Whether the completion of each statement is to be seen. -/
  statements : Bool := false
  deriving DecidableEq, Repr, Inhabited

/-- Whether an observer sees an event. -/
def Watch.shows {ν : Type} (watch : Watch) : Event ν → Bool
  | .notice notice =>
      match watch.level with
      | some threshold => notice.level.shownAt threshold
      | none => false
  | .after _ _ => watch.statements
  | _ => true

end Unwinding
