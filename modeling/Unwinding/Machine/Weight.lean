import Unwinding.Machine.Step

/-!
# How long a run can take

Every statement stands for a bounded amount of work, known before it runs: loops and
nested regions say how often their bodies run, and a guard body that is registered runs
at most once. `Machine.weight` adds up the work that a state has ahead of it, and the
run of a program is given that many steps.
-/

namespace Unwinding

variable {ν : Type}

mutual

/-- An upper bound on the steps of a statement. -/
def Stmt.weight : Stmt ν → Nat
  | .raise _ _ message => Piece.weights message + 1
  | .protect levels _ _ clauses body =>
      (levels + 1) * (Clause.weights clauses + 8) + Stmt.weights body + 5
  | .block body => Stmt.weights body + 6
  | .loop times body => times * (Stmt.weights body + 5) + 4
  | .attempt body none => Stmt.weights body + 9
  | .attempt body (some between) => Stmt.weights body + Stmt.weights between + 12
  | .acquire _ _ times => times * 6 + 4
  | .guard _ _ body => Stmt.weights body + 10
  | _ => 4

/-- An upper bound on the steps of a list of statements. -/
def Stmt.weights : List (Stmt ν) → Nat
  | [] => 0
  | stmt :: rest => stmt.weight + Stmt.weights rest

/-- An upper bound on the steps of a clause, with what it takes to begin its handler. -/
def Clause.weight : Clause ν → Nat
  | .mk _ _ handler => Stmt.weights handler + 8

/-- An upper bound on the steps of a list of clauses, though at most one of them is
run. -/
def Clause.weights : List (Clause ν) → Nat
  | [] => 0
  | clause :: rest => clause.weight + Clause.weights rest

/-- An upper bound on the steps of a piece of a message. -/
def Piece.weight : Piece ν → Nat
  | .text _ => 1
  | .run body => Stmt.weights body + 6

/-- An upper bound on the steps of a message, with the raise at its end. -/
def Piece.weights : List (Piece ν) → Nat
  | [] => 2
  | piece :: rest => piece.weight + Piece.weights rest

end

namespace Machine

/-- The guard bodies of a scope and the end of the scope. -/
def scopeWeight : List (Flavor × List (Stmt ν)) → Nat
  | [] => 3
  | (_, body) :: rest => Stmt.weights body + 6 + scopeWeight rest

/-- The work of dropping a handle. -/
def handleWeight : Handle ν → Nat
  | .guards scope => scopeWeight scope.bodies + 1
  | _ => 3

/-- The work of dropping the handles of a block, one after another. -/
def handlesWeight : List (String × Handle ν) → Nat
  | [] => 0
  | (_, handle) :: rest => handleWeight handle + 1 + handlesWeight rest

/-- The work of a region that has caught an exception. -/
def clausesWeight (clauses : List (Clause ν)) : Nat :=
  Clause.weights clauses + 7

/-- The work that code has ahead of it once what it waits for is done. -/
def waitingWeight : Resumption ν → Nat
  | .block _ rest handles _ => Stmt.weights rest + handlesWeight handles + 3
  | .body region => clausesWeight region.clauses
  | .handler _ => 3
  | .guarding scope => scopeWeight scope.bodies
  | .releasing => 2
  | .unwinding _ => 1
  | .attempt none => 3
  | .attempt (some between) => Stmt.weights between + 6
  | .resuming _ => 1
  | .loop times body => times * (Stmt.weights body + 5) + 1
  | .message _ rest => Piece.weights rest
  | .thread _ => 1

/-- The work of all the code that waits. -/
def controlWeight : List (Resumption ν) → Nat
  | [] => 0
  | waiting :: below => waitingWeight waiting + controlWeight below

/-- The work of what happens next, without the code that waits. -/
def focusWeight : Focus ν → Nat
  | .next => 2
  | .exec stmt => stmt.weight
  | .complete _ => 3
  | .deliver _ => 4
  | .unwind _ => 1
  | .offer region _ => clausesWeight region.clauses
  | .leave _ _ => 6
  | .forward _ => 2
  | .drop handle => handleWeight handle
  | .leaveScope scope => scopeWeight scope.bodies
  | .write _ pieces => Piece.weights pieces
  | .stopped _ => 0

/-- An upper bound on the steps a machine can still take. -/
def weight (m : Machine ν) : Nat :=
  focusWeight m.focus + controlWeight m.control

end Machine

end Unwinding
