import Unwinding.Proofs.Lineage

/-!
# Plain exceptions

What a program means if exceptions are just what they are in any language. Code ends
with a value, or throws an exception or a panic. A region that catches an exception has
it in hand; a guard scope runs its bodies when its block ends, by the way in which that
ends. There are no stacks of regions, marks, frames or records here, no numbers to match
and nothing in flight: the only things that code shares are what it can name (variables,
and the handles of the blocks around it), the calls it runs in, and whether an explicit
region has been abandoned in the innermost body that runs.

The evaluator goes by the structure of the code. Only guard bodies are run from where
they are kept, so it is given a bound for how deep they may run inside each other
(`Plain.runAt`).
-/

namespace Unwinding

/-! ## What code shares -/

/-- What plain code throws. -/
inductive Thrown where
  | raised (raised : Raised)
  | panicked (text : Option String)
  /-- Here the thread would have been terminated, and nothing is said about what
  follows. -/
  | stuck

/-- The unwinding that it is to code that knows nothing of exceptions. -/
def Thrown.payload? : Thrown → Option Payload
  | .raised _ => some .raise
  | .panicked text => some (.panic text)
  | .stuck => none

/-- What a handle stands for. -/
inductive Held (ν : Type) where
  | thread
  | region (site : Site)
  | call
  /-- The guard bodies of a scope, newest first. -/
  | guards (bodies : List (Flavor × List (Stmt ν)))

/-- What a program shows of its run: the answers of its statements, as far as they do
not show the bookkeeping itself. -/
inductive Sighting (ν : Type) where
  /-- Something was asked about the bookkeeping. -/
  | asked
  | after (word : String)
  | say (text : String)
  | nothingToRethrow
  | exception (shown : Option (Raised × String))
  | exceptionIsA (answer : Option Bool)
  | caught (raised : Raised) (name : String) (clause : Nat)
  | result (value : Option ν)
  | fulfilled (value : Option ν)
  | unmatched (raised : Raised) (name : String)
  | completed (value : Option ν)
  | unwound (payload : Payload)
  | openFailed (error : Error)
  | registered (length : Nat)
  | configured (outcome : Except Error Unit)
  | declared (outcome : Except Error Kind)
  | isA (answer : Except Error Bool)
  | kinds (rows : List (Kind × KindEntry))

/-- What plain code shares. -/
structure Store (ν : Type) where
  registry : Registry
  config : Option Config
  /-- Whether the thread has a context. -/
  opened : Bool
  /-- Whether a message is being written. -/
  writing : Bool
  bindings : List (String × Raised)
  /-- The regions and calls that the code runs in, innermost first. -/
  path : List Site
  /-- The first explicit region that was abandoned in the innermost body that runs. -/
  escape : Option Site
  /-- What the blocks hold, the innermost block first, and in it the newest handle
  first. -/
  blocks : List (List (String × Held ν))
  /-- What has been seen, newest first. -/
  log : List (Sighting ν)

namespace Held

variable {ν : Type}

/-- What a name stands for. -/
def find? (name : String) : List (List (String × Held ν)) → Option (Held ν)
  | [] => none
  | handles :: outer => (handles.lookup name).or (find? name outer)

/-- Takes what a name stands for out of its block. -/
def take? (name : String) :
    List (List (String × Held ν)) → Option (Held ν × List (List (String × Held ν)))
  | [] => none
  | handles :: outer =>
      match handles.lookup name with
      | some held =>
          some (held, handles.eraseP (fun (other, _) => other = name) :: outer)
      | none => (take? name outer).map fun (held, outer) => (held, handles :: outer)

/-- Replaces what a name stands for. -/
def put (name : String) (held : Held ν) :
    List (List (String × Held ν)) → List (List (String × Held ν))
  | [] => []
  | handles :: outer =>
      if (handles.lookup name).isSome then
        handles.replaceF
          (fun (other, _) => if other = name then some (other, held) else none) :: outer
      else
        handles :: put name held outer

end Held

/-! ## Plain code -/

/-- Code that ends with a value or throws, and changes what code shares. -/
def Plain (ν α : Type) : Type :=
  Store ν → Except Thrown α × Store ν

namespace Plain

variable {ν α β : Type}

/-- Goes on with whatever comes of some code. -/
def meet (code : Plain ν α) (next : Except Thrown α → Plain ν β) :
    Plain ν β := fun store =>
  next (code store).1 (code store).2

/-- Ends at once, with a value or with what is thrown. -/
def give (outcome : Except Thrown α) : Plain ν α := fun store =>
  (outcome, store)

/-- Throws. -/
def throw (thrown : Thrown) : Plain ν α :=
  give (.error thrown)

/-- Goes on with the value of some code; what the code throws ends all. -/
def andThen (code : Plain ν α) (next : α → Plain ν β) : Plain ν β :=
  code.meet fun outcome =>
    match outcome with
    | .ok a => next a
    | .error thrown => throw thrown

instance : Monad (Plain ν) where
  pure a := give (.ok a)
  bind := andThen

/-- Looks at what code shares. -/
def read (f : Store ν → α) : Plain ν α := fun store =>
  (.ok (f store), store)

/-- Changes what code shares. -/
def change (f : Store ν → Store ν) : Plain ν Unit := fun store =>
  (.ok (), f store)

/-- Shows something of the run. -/
def see (sighting : Sighting ν) : Plain ν Unit :=
  change fun store => { store with log := sighting :: store.log }

/-! ## Handles -/

/-- The innermost block gets a handle. -/
def own (name : String) (held : Held ν) : Plain ν Unit :=
  change fun store =>
    match store.blocks with
    | [] => store
    | handles :: outer => { store with blocks := ((name, held) :: handles) :: outer }

/-- Opens the context of the thread, if it is not open. -/
def openContext : Plain ν (Option Error) := fun store =>
  let config := store.config.getD {}
  let store := { store with config := some config }
  if !config.fitsMemory then
    (.error (.panicked (some "capacity overflow")), store)
  else if store.writing || store.opened then
    (.ok (some .contextActive), store)
  else
    (.ok none, { store with opened := true })

/-- A context that is in use stays open. -/
def closeContext : Plain ν Unit :=
  change fun store => { store with opened := store.writing && store.opened }

/-- The handle of a context that has been opened, or the reason why it has not. -/
def ownThread (name : String) : Option Error → Plain ν Unit
  | none => own name .thread
  | some error => see (.openFailed error)

/-- Gets one handle. Regions and calls are on the path of the code from here on. -/
def acquireOnce (name : String) : Opening → Plain ν Unit
  | .thread _ => do
      ownThread name (← openContext)
  | .region site => do
      change fun store => { store with path := site :: store.path }
      own name (.region site)
  | .call site => do
      change fun store => { store with path := site :: store.path }
      own name .call
  | .guards _ => own name (.guards [])

/-- Gets so many handles, all under one name. -/
def acquire (name : String) (opening : Opening) : Nat → Plain ν (Option (Option ν))
  | 0 => return none
  | times + 1 => do
      acquireOnce name opening
      acquire name opening times

/-- A guard body must not throw. -/
def afterGuardBody : Except Thrown (Option ν) → Plain ν Unit
  | .ok _ => return
  | .error _ => throw .stuck

/-- Runs the guard bodies of a scope that apply when it is left in this way. -/
def guardBodies (runs : List (Stmt ν) → Plain ν (Option ν)) (unwinding : Bool) :
    List (Flavor × List (Stmt ν)) → Plain ν Unit
  | [] => return
  | (flavor, body) :: bodies => do
      if flavor.applies unwinding then (runs body).meet afterGuardBody
      guardBodies runs unwinding bodies

/-- Leaves the innermost region or call. -/
def comeBack : Plain ν Unit :=
  change fun store => { store with path := store.path.tail }

/-- Drops a handle. A region that is dropped by code that returns has been abandoned. -/
def drop (runs : List (Stmt ν) → Plain ν (Option ν)) (unwinding : Bool) :
    Held ν → Plain ν Unit
  | .thread => closeContext
  | .region site => do
      comeBack
      unless unwinding do
        change fun store => { store with escape := store.escape.or (some site) }
  | .call => comeBack
  | .guards bodies => guardBodies runs unwinding bodies

/-- Gives up a handle that has been taken out of its block. -/
def giveUp (runs : List (Stmt ν) → Plain ν (Option ν)) (how : Closing) (held : Held ν) :
    Plain ν (Option (Option ν)) :=
  match how, held with
  | .forget, _ => return none
  | .leave, .region _ => do
      comeBack
      return none
  | .shutdown, .thread => do
      closeContext
      see .asked
      return none
  | _, _ => do
      drop runs false held
      return none

/-- Gives up a handle that has been found, and takes it out of its block. -/
def releaseFound (runs : List (Stmt ν) → Plain ν (Option ν)) (how : Closing) :
    Option (Held ν × List (List (String × Held ν))) → Plain ν (Option (Option ν))
  | none => return none
  | some (held, blocks) => do
      change fun store => { store with blocks }
      giveUp runs how held

/-- Gives up the handle that a name stands for. -/
def release (runs : List (Stmt ν) → Plain ν (Option ν)) (name : String)
    (how : Closing) : Plain ν (Option (Option ν)) := do
  releaseFound runs how (← read fun store => Held.take? name store.blocks)

/-- Registers a guard body, if the handle that was found is that of a scope. -/
def registerIn (name : String) (flavor : Flavor) (body : List (Stmt ν)) :
    Option (Held ν) → Plain ν (Option (Option ν))
  | some (.guards bodies) => do
      change fun store =>
        { store with
          blocks := Held.put name (.guards ((flavor, body) :: bodies)) store.blocks }
      see (.registered (bodies.length + 1))
      return none
  | _ => return none

/-- Registers a guard body in the scope that a name stands for. -/
def register (name : String) (flavor : Flavor) (body : List (Stmt ν)) :
    Plain ν (Option (Option ν)) := do
  registerIn name flavor body (← read fun store => Held.find? name store.blocks)

/-! ## Blocks -/

/-- Takes the newest handle of the innermost block. -/
def takeNewest : Plain ν (Option (Held ν)) := fun store =>
  match store.blocks with
  | ((_, held) :: handles) :: outer =>
      (.ok (some held), { store with blocks := handles :: outer })
  | _ => (.ok none, store)

/-- The innermost block is over. -/
def endBlock : Plain ν Unit :=
  change fun store => { store with blocks := store.blocks.tail }

/-- Drops the handles that the innermost block still has, at most so many, newest
first. -/
def dropHandles (runs : List (Stmt ν) → Plain ν (Option ν)) (unwinding : Bool) :
    Nat → Plain ν Unit
  | 0 => endBlock
  | count + 1 => do
      match ← takeNewest with
      | none => endBlock
      | some held =>
          drop runs unwinding held
          dropHandles runs unwinding count

/-- The innermost block ends with an outcome. -/
def leaveBlock (runs : List (Stmt ν) → Plain ν (Option ν))
    (outcome : Except Thrown (Option ν)) : Plain ν (Option ν) := do
  let count ← read fun store => (store.blocks.headD []).length
  dropHandles runs (!outcome.isOk) count
  give outcome

/-- Runs code in a block of its own. -/
def block (runs : List (Stmt ν) → Plain ν (Option ν)) (code : Plain ν (Option ν)) :
    Plain ν (Option ν) := do
  change fun store => { store with blocks := [] :: store.blocks }
  code.meet (leaveBlock runs)

/-! ## Raises and regions -/

/-- An exception that is raised now. -/
def raisedNow (kind : Kind) (message : String) (origin : Site) (store : Store ν) :
    Raised :=
  ⟨kind, message, origin, store.path.reverse⟩

/-- The message of a raise is complete, or throws itself. -/
def finishRaise (kind : Kind) (site : Site) (written : Except Thrown Bounded) :
    Plain ν α := do
  change fun store => { store with writing := false }
  match written with
  | .ok buffer => do
      let raised ← read fun store =>
        raisedNow kind (Context.messageOf store.registry.table kind buffer.text)
          site store
      throw (.raised raised)
  | .error thrown => throw thrown

/-- Raises an exception of a kind. Its message is written first, and while it is, code
of the program may run that finds the context in use. -/
def raiseKind (site : Site) (write : Bounded → Plain ν Bounded) :
    Option Kind → Plain ν α
  | none => throw .stuck
  | some kind => do
      let limit ← read fun store => (store.config.getD {}).messageLimit
      change fun store => { store with writing := true }
      (write { limit }).meet (finishRaise kind site)

/-- Raises an exception; code writes its message into a buffer. -/
def raise (ref : KindRef) (site : Site) (write : Bounded → Plain ν Bounded) :
    Plain ν α := do
  raiseKind site write (ref.resolve? (← read fun store => store.registry.slots))

/-- The exception that reports an abandoned region. -/
def escapeRaised (site : Site) (store : Store ν) : Raised :=
  let config := store.config.getD {}
  let text := s!"control left the region entered at {site.text} without closing it"
  raisedNow ((config.escapeKind.bind store.registry.slots.get?).getD .illegalEscape)
    (Bounded.write { limit := config.messageLimit } text).1.text site store

/-- A variable gets an exception. -/
def assign (name : String) (raised : Raised) : Plain ν Unit :=
  change fun store => { store with bindings := assigned name raised store.bindings }

/-- A region is left with a value, or with an exception that no clause caught. -/
def leaveRegion (mode : Mode) (outcome : Except Raised (Option ν)) :
    Plain ν (Option ν) := do
  comeBack
  match outcome, mode with
  | .ok value, .run => do
      see (.result value)
      return value
  | .ok value, .attempt _ => do
      see (.fulfilled value)
      return value
  | .error raised, .run => throw (.raised raised)
  | .error raised, .attempt name => do
      assign name raised
      let kindName ← read fun store => store.registry.table.name raised.kind
      see (.unmatched raised kindName)
      return none

/-- What comes of the clauses of a region; without a value, none of them fits the
exception. -/
def afterClauses (mode : Mode) (raised : Raised) :
    Except Thrown (Option (Option ν)) → Plain ν (Option ν)
  | .ok (some value) => leaveRegion mode (.ok value)
  | .ok none => leaveRegion mode (.error raised)
  | .error thrown => do
      comeBack
      throw thrown

/-- The body of a region has ended. If an explicit region was abandoned in it, it ends
with an exception after all. -/
def afterBody (mode : Mode) (clauses : Raised → Plain ν (Option (Option ν)))
    (outer : Option Site) (outcome : Except Thrown (Option ν)) :
    Plain ν (Option ν) := do
  let escape ← read Store.escape
  change fun store => { store with escape := outer }
  match outcome, escape with
  | .ok value, none => leaveRegion mode (.ok value)
  | .ok _, some site => do
      let raised ← read (escapeRaised site)
      (clauses raised).meet (afterClauses mode raised)
  | .error (.raised raised), _ => (clauses raised).meet (afterClauses mode raised)
  | .error thrown, _ => do
      comeBack
      throw thrown

/-- Runs a body in a protected region. -/
def region (site : Site) (mode : Mode) (clauses : Raised → Plain ν (Option (Option ν)))
    (body : Plain ν (Option ν)) :
    Plain ν (Option ν) := do
  let outer ← read Store.escape
  change fun store => { store with path := site :: store.path, escape := none }
  body.meet (afterBody mode clauses outer)

/-- So many regions inside each other, at least one. -/
def nested (wrap : Plain ν (Option ν) → Plain ν (Option ν)) :
    Nat → Plain ν (Option ν) → Plain ν (Option ν)
  | inner + 2, body => wrap (nested wrap (inner + 1) body)
  | _, body => wrap body

/-! ## Other statements -/

/-- The answer of a statement. -/
def answer (sighting : Sighting ν) : Plain ν (Option (Option ν)) := do
  see sighting
  return none

/-- The value of some code becomes that of the block. -/
def valued (code : Plain ν (Option ν)) : Plain ν (Option (Option ν)) := do
  return some (← code)

/-- Runs code so many times, or until it throws. -/
def repeats (code : Plain ν (Option ν)) : Nat → Plain ν (Option (Option ν))
  | 0 => return none
  | times + 1 => do
      let _ ← code
      repeats code times

/-- Whatever unwinds out of a body is stopped; with code to resume after, the unwinding
goes on. -/
def afterAttempt (resume : Option (Plain ν (Option ν))) :
    Except Thrown (Option ν) → Plain ν (Option (Option ν))
  | .ok value => answer (.completed value)
  | .error thrown =>
      match thrown.payload? with
      | none => throw thrown
      | some payload => do
          see (.unwound payload)
          match resume with
          | none => return none
          | some between => do
              let _ ← between
              throw thrown

/-- Throws what was found again, or says that there is nothing to throw. -/
def rethrowFound : Option Raised → Plain ν (Option (Option ν))
  | some raised => throw (.raised raised)
  | none => answer .nothingToRethrow

/-- Throws the exception in a variable again. -/
def rethrow (name : String) : Plain ν (Option (Option ν)) := do
  rethrowFound (← read fun store => store.bindings.lookup name)

/-- Shows the exception in a variable. -/
def showException (name : String) : Plain ν (Option (Option ν)) := do
  let shown ← read fun store =>
    (store.bindings.lookup name).map fun raised =>
      (raised, store.registry.table.name raised.kind)
  answer (.exception shown)

/-- Asks whether the exception in a variable is of a kind. -/
def askKind (name : String) (ancestor : KindRef) : Plain ν (Option (Option ν)) := do
  let fits ← read fun store =>
    (store.bindings.lookup name).map fun raised => store.registry.fits raised.kind
      ancestor
  answer (.exceptionIsA fits)

/-- Looks at a handle that has been found. What it shows of the stacks is none of this
evaluator’s business. -/
def inspectFound : Option (Held ν) → Plain ν (Option (Option ν))
  | some _ => answer .asked
  | none => return none

/-- Looks at the handle that a name stands for. -/
def inspect (name : String) : Plain ν (Option (Option ν)) := do
  inspectFound (← read fun store => Held.find? name store.blocks)

/-- Only a thread that has no configuration can be given one. -/
def configureOver (config : Config) : Option Config → Plain ν (Option (Option ν))
  | some _ => answer (.configured (.error .alreadyInitialized))
  | none => do
      change fun store => { store with config := some config }
      answer (.configured (.ok ()))

/-- Gives the thread a configuration. -/
def configure (config : Config) : Plain ν (Option (Option ν)) := do
  configureOver config (← read Store.config)

/-- What comes of a declaration. -/
def declared : Except Error (Kind × Registry × List Notice) →
    Plain ν (Option (Option ν))
  | .error error => answer (.declared (.error error))
  | .ok (kind, registry, _) => do
      change fun store => { store with registry }
      answer (.declared (.ok kind))

/-- Declares a kind of exception. -/
def declare (entry : Registry.Entry) : Plain ν (Option (Option ν)) := do
  declared (← read fun store => store.registry.declare entry)

end Plain

/-! ## The evaluator -/

section

variable {ν : Type} (runs : List (Stmt ν) → Plain ν (Option ν))

mutual

/-- A statement; its value, if it has one, becomes that of its block. -/
def Stmt.eval : Stmt ν → Plain ν (Option (Option ν))
  | .depths => .answer .asked
  | .state => .answer .asked
  | .trace => .answer .asked
  | .current => .answer .asked
  | .printTrace => return none
  | .say text => .answer (.say text)
  | .annotate _ => .answer .asked
  | .value v => return some (some v)
  | .raise ref site message => .raise ref site (Piece.write message)
  | .panic text => .throw (.panicked text)
  | .rethrow name => .rethrow name
  | .exception name => .showException name
  | .exceptionIsA name ancestor => .askKind name ancestor
  | .protect levels site mode clauses body =>
      .valued
        (.nested (.region site mode (Clause.offer clauses 0))
        levels (.block runs (Stmt.evals body none)))
  | .block body => .valued (.block runs (Stmt.evals body none))
  | .loop times body => .repeats (.block runs (Stmt.evals body none)) times
  | .attempt body none =>
      (Plain.block runs (Stmt.evals body none)).meet (.afterAttempt none)
  | .attempt body (some between) =>
      (Plain.block runs (Stmt.evals body none)).meet
        (.afterAttempt (some (.block runs (Stmt.evals between none))))
  | .acquire name opening times => .acquire name opening times
  | .release name how => .release runs name how
  | .guard scope flavor body => .register scope flavor body
  | .inspect name => .inspect name
  | .configure config => .configure config
  | .declare entry => .declare entry
  | .sealKinds => do
      Plain.change fun store => { store with registry := store.registry.sealed }
      return none
  | .isA candidate ancestor => do
      .answer (.isA (← .read fun store => store.registry.isA candidate ancestor))
  | .listKinds => do
      .answer (.kinds (← .read fun store => store.registry.table.rows))

/-- The statements of a block that has a value already. -/
def Stmt.evals : List (Stmt ν) → Option ν → Plain ν (Option ν)
  | [], value => return value
  | stmt :: rest, value => do
      let set ← stmt.eval
      Plain.see (.after stmt.word)
      Stmt.evals rest (set.getD value)

/-- The first clause from a place on that fits an exception handles it; without a value,
there is none. -/
def Clause.offer : List (Clause ν) → Nat → Raised → Plain ν (Option (Option ν))
  | [], _, _ => return none
  | .mk kind name handler :: clauses, index, raised => do
      let registry ← .read Store.registry
      if registry.fits raised.kind kind then
        Plain.see (.caught raised (registry.table.name raised.kind) index)
        Plain.assign name raised
        return some (← .block runs (Stmt.evals handler none))
      else
        Clause.offer clauses (index + 1) raised

/-- Writes the pieces of a message, up to the first that does not fit. -/
def Piece.write : List (Piece ν) → Bounded → Plain ν Bounded
  | [], buffer => return buffer
  | .text text :: pieces, buffer =>
      match buffer.write text with
      | (buffer, true) => Piece.write pieces buffer
      | (buffer, false) => return buffer
  | .run body :: pieces, buffer => do
      let _ ← Plain.block runs (Stmt.evals body none)
      Piece.write pieces buffer

end

end

namespace Plain

variable {ν : Type}

/-- Runs a guard body, and guard bodies inside it, so deep. -/
def runAt : Nat → List (Stmt ν) → Plain ν (Option ν)
  | 0, _ => throw .stuck
  | clock + 1, body => block (runAt clock) (Stmt.evals (runAt clock) body none)

/-- Runs the body of a thread. -/
def thread (clock : Nat) (auto : Bool) (body : List (Stmt ν)) : Plain ν (Option ν) := do
  if auto then
    let _ ← openContext
  block (runAt clock) (Stmt.evals (runAt clock) body none)

end Plain

/-- What the code of a thread shares at first. -/
def Process.store {ν : Type} (process : Process) : Store ν where
  registry := process.registry
  config := process.config
  opened := false
  writing := false
  bindings := []
  path := []
  escape := none
  blocks := []
  log := []

end Unwinding
