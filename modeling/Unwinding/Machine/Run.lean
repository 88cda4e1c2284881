import Unwinding.Machine.Weight

/-!
# Runs

The run of a thread and of a whole program. The threads of a program run one after the
other in one process; when one of them ends the process, the others never start.
-/

namespace Unwinding

namespace Machine

variable {ν : Type}

/-- Takes at most so many steps.

A machine that has stopped stays as it is, so a bound that is too large does no harm. -/
def steps : Nat → Machine ν → Machine ν
  | 0, m => m
  | count + 1, m =>
      match m.focus with
      | .stopped _ => m
      | _ => steps count m.step

/-- Runs a machine until it stops. -/
def run (m : Machine ν) : Machine ν :=
  steps m.weight m

/-- A thread about to run its body. With `auto`, it has a context already, unless
opening that unwinds the thread. -/
def start (process : Process) (auto : Bool) (limits : Option Limits)
    (body : List (Stmt ν)) :
    Machine ν :=
  let fresh : Machine ν :=
    { toProcess := process
      control := [.block "" body [] none, .thread auto]
      focus := .next }
  if auto then
    match fresh.openThread limits with
    | (.overflowed, m) => { m with control := [] }.unwind overflow
    | (_, m) => m
  else
    fresh

end Machine

/-- What is known of a thread in the end. -/
structure Report (ν : Type) where
  /-- The history of the thread, oldest event first. -/
  events : List (Event ν)
  stop : Stop ν
  initialized : Bool
  poisoned : Bool

/-- How a process ends. -/
inductive ExitStatus where
  | code (status : Nat)
  | aborted
  deriving DecidableEq, Repr, Inhabited

/-- What is left of the run of a program. -/
structure Outcome (ν : Type) where
  threads : List (Report ν)
  exit : ExitStatus
  printed : String

namespace Machine

variable {ν : Type}

/-- How the thread ended; a machine that has not stopped counts as halted. -/
def stop (m : Machine ν) : Stop ν :=
  match m.focus with
  | .stopped how => how
  | _ => .halted

/-- What is told of a thread when it has stopped: its history, and how it ended. -/
def report (m : Machine ν) : Report ν where
  events := m.events.reverse
  stop := m.stop
  initialized := m.isInitialized
  poisoned := m.poisoned

end Machine

namespace Program

variable {ν : Type}

/-- How a process ends that is ended by a termination. -/
def exitStatus : TerminationKind → ExitStatus
  | .uncaught => .code 1
  | .fatal => .aborted

/-- Runs the remaining bodies of a program in a process in which some threads have run
already. A thread that ends the process is the last one; if it does so in silence,
nothing is known of any thread. -/
def runFrom (program : Program ν) (process : Process) (done : List (Report ν)) :
    List (List (Stmt ν)) → Outcome ν
  | [] => ⟨done, .code 0, String.join process.printed.reverse⟩
  | body :: rest =>
      let m := (Machine.start process program.auto program.limits body).run
      match m.stop with
      | .exited kind silent =>
          ⟨if silent then [] else done ++ [m.report], exitStatus kind,
            String.join m.printed.reverse⟩
      | _ => program.runFrom m.toProcess (done ++ [m.report]) rest

/-- Runs a program. -/
def run (program : Program ν) : Outcome ν :=
  program.runFrom { registry := program.registry, config := program.config } []
    program.threads

end Program

end Unwinding
