import Unwinding.Config
import Unwinding.Kind.Registry

/-!
# Programs

A program says what each of its threads does with the runtime. Values are of any type
`ν`: the runtime hands them from a body to whoever waits for it and never looks at them.

A block is a list of statements. It owns the handles that its statements open and drops
those that are left when it ends, newest first. Bodies of regions and loops, handlers
and guard bodies are blocks.
-/

namespace Unwinding

/-- When a guard body runs. -/
inductive Flavor where
  | always
  | success
  | failure
  deriving DecidableEq, Repr, Inhabited

namespace Flavor

/-- Every flavor, in display order. -/
def all : List Flavor :=
  [.always, .success, .failure]

/-- The name of a flavor. -/
def name : Flavor → String
  | .always => "Always"
  | .success => "Success"
  | .failure => "Failure"

/-- Whether a guard body runs when its scope is left in this way. -/
def applies (flavor : Flavor) (unwinding : Bool) : Bool :=
  match flavor with
  | .always => true
  | .success => !unwinding
  | .failure => unwinding

end Flavor

/-- What a program opens: the context of the thread, or a handle for part of its
bookkeeping. -/
inductive Opening where
  | thread (limits : Option Limits)
  | region (site : Site)
  | call (site : Site)
  | guards (site : Site)
  deriving DecidableEq, Repr

/-- How a program gives a handle up. -/
inductive Closing where
  | drop
  /-- Leaves a region. -/
  | leave
  /-- Shuts the thread down. -/
  | shutdown
  /-- Nothing is run, and what the handle stood for stays. -/
  | forget
  deriving DecidableEq, Repr

/-- What a protected region does with an exception that no clause catches: it goes on to
the regions around, or ends in a variable. -/
inductive Mode where
  | run
  | attempt (name : String)
  deriving DecidableEq, Repr

mutual

/-- A statement.

Statements are all that a program does. Left out is code that the language or the
library calls behind the back of a program:

* the destructors of the program's own values, which an unwinding runs outside of any
  guard body. `Unfolds` adds them to a run, and the laws that depend on them speak of
  it;
* a reference to a kind that looks its kind up by code of its own, and the destructors
  of what handlers have captured: both run while the clauses of a region are tried
  (`Machine.offer`);
* an observer that uses the runtime when it is told something. -/
inductive Stmt (ν : Type) where
  | depths
  | state
  | trace
  | current
  | printTrace
  | say (text : String)
  | annotate (text : String)
  /-- Sets the value of the block. -/
  | value (v : ν)
  /-- Raises an exception; the message is written piece by piece. -/
  | raise (kind : KindRef) (site : Site) (message : List (Piece ν))
  /-- Panics, with a text or without: an unwinding that is none of the runtime's. -/
  | panic (text : Option String)
  /-- Raises the exception of a variable again. -/
  | rethrow (name : String)
  | exception (name : String)
  | exceptionIsA (name : String) (ancestor : KindRef)
  /-- Runs a body inside protected regions, so many of them, that share their
  clauses. -/
  | protect (levels : Nat) (site : Site) (mode : Mode) (clauses : List (Clause ν))
      (body : List (Stmt ν))
  | block (body : List (Stmt ν))
  | loop (times : Nat) (body : List (Stmt ν))
  /-- Runs a body and stops whatever unwinds out of it; with a block to resume after,
  the unwinding goes on. -/
  | attempt (body : List (Stmt ν)) (resume : Option (List (Stmt ν)))
  | acquire (name : String) (opening : Opening) (times : Nat)
  | release (name : String) (how : Closing)
  /-- Registers a guard body in a scope. -/
  | guard (scope : String) (flavor : Flavor) (body : List (Stmt ν))
  | inspect (name : String)
  | configure (config : Config)
  | declare (entry : Registry.Entry)
  | sealKinds
  | isA (candidate ancestor : KindRef)
  | listKinds

/-- A clause of a protected region: the kinds it catches, the variable it puts the
exception in, and its handler. -/
inductive Clause (ν : Type) where
  | mk (kind : KindRef) (name : String) (handler : List (Stmt ν))

/-- A piece of a message: text, or statements that run while the message is written. -/
inductive Piece (ν : Type) where
  | text (text : String)
  | run (body : List (Stmt ν))

end

namespace Clause

variable {ν : Type}

/-- The kind that a clause catches, with all the kinds below it. -/
def kind : Clause ν → KindRef
  | .mk kind _ _ => kind

/-- The variable that a clause puts the exception in. -/
def name : Clause ν → String
  | .mk _ name _ => name

/-- The handler of a clause. -/
def handler : Clause ν → List (Stmt ν)
  | .mk _ _ handler => handler

end Clause

/-- The word that a program uses for a statement. -/
def Stmt.word {ν : Type} : Stmt ν → String
  | .depths => "depths"
  | .state => "state"
  | .trace => "trace"
  | .current => "current"
  | .printTrace => "print_trace"
  | .say _ => "say"
  | .annotate _ => "annotate"
  | .value _ => "value"
  | .raise _ _ _ => "raise"
  | .panic _ => "panic"
  | .rethrow _ => "rethrow"
  | .exception _ => "exc"
  | .exceptionIsA _ _ => "exc_is_a"
  | .protect _ _ _ _ _ => "protect"
  | .block _ => "block"
  | .loop _ _ => "repeat"
  | .attempt _ _ => "try"
  | .acquire _ _ _ => "open"
  | .release _ _ => "close"
  | .guard _ _ _ => "on"
  | .inspect _ => "inspect"
  | .configure _ => "config"
  | .declare _ => "declare"
  | .sealKinds => "seal"
  | .isA _ _ => "is_a"
  | .listKinds => "kinds"

/-- A whole program: the bodies of its threads, which run one after the other, and the
process they run in. -/
structure Program (ν : Type) where
  threads : List (List (Stmt ν))
  /-- Whether each thread starts with a context and shuts it down in the end. -/
  auto : Bool := true
  /-- The capacities of the stacks of such a context, if they are not those of the
  configuration. -/
  limits : Option Limits := none
  registry : Registry := {}
  /-- The configuration that is installed before the first thread. -/
  config : Option Config := none

end Unwinding
