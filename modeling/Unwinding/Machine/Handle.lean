import Unwinding.Machine.Basic
import Unwinding.Text.Quoted

/-!
# Handles

Blocks own handles by name. A name is looked up from the innermost block outward, and
the newest handle of a name hides the older ones. Dropping a handle is the destructor of
what it stands for: it tells from the state of the thread whether the code around it
returns or is unwound.
-/

namespace Unwinding

/-! ## Looking names up -/

namespace Handle

variable {ν : Type}

/-- Splits off the newest handle of a name. -/
def split? (name : String) :
    List (String × Handle ν) → Option (Handle ν × List (String × Handle ν))
  | [] => none
  | (other, handle) :: older =>
      if other = name then
        some (handle, older)
      else
        (split? name older).map fun (found, rest) => (found, (other, handle) :: rest)

/-- Replaces the newest handle of a name. -/
def replace (name : String) (handle : Handle ν) :
    List (String × Handle ν) → List (String × Handle ν)
  | [] => []
  | (other, old) :: older =>
      if other = name then (other, handle) :: older else (other, old) ::
        replace name handle older

/-- The handle a name stands for in the code that waits. -/
def find? (name : String) : List (Resumption ν) → Option (Handle ν)
  | [] => none
  | .block _ _ handles _ :: below => (handles.lookup name).or (find? name below)
  | _ :: below => find? name below

/-- Takes the handle that a name stands for out of its block. -/
def take? (name : String) :
    List (Resumption ν) → Option (Handle ν × List (Resumption ν))
  | [] => none
  | .block word rest handles value :: below =>
      match split? name handles with
      | some (handle, handles) => some (handle, .block word rest handles value :: below)
      | none =>
          (take? name below).map fun (handle, below) =>
            (handle, .block word rest handles value :: below)
  | other :: below =>
      (take? name below).map fun (handle, below) => (handle, other :: below)

/-- Puts a handle in the place of the one that a name stands for. -/
def put (name : String) (handle : Handle ν) : List (Resumption ν) → List (Resumption ν)
  | [] => []
  | .block word rest handles value :: below =>
      if (handles.lookup name).isSome then
        .block word rest (replace name handle handles) value :: below
      else
        .block word rest handles value :: put name handle below
  | other :: below => other :: put name handle below

/-! ## Debug forms -/

private def siteText (site : Site) : String :=
  s!"Site \x7b file: {Quoted.quote site.file}, line: {site.line}, " ++
    s!"function: {Quoted.quote site.function} \x7d"

/-- What a handle shows of itself; a handle in a block is never closed. -/
def inspection : Handle ν → Inspection
  | .thread => .text "ThreadHandle \x7b closed: false \x7d"
  | .region visit _ =>
      .text (s!"RegionGuard \x7b id: {visit.id}, site: {siteText visit.site}, " ++
        "closed: false \x7d")
  | .call entry _ => .call entry
  | .guards scope =>
      let mark :=
        match scope.mark with
        | some id => s!"Some({id})"
        | none => "None"
      .scope
        (s!"GuardScope \x7b site: {siteText scope.site}, mark: {mark}, " ++
          s!"bodies: {scope.count} \x7d")
        scope.count

end Handle

namespace Machine

variable {ν : Type}

/-! ## Opening -/

/-- Gives a handle to the innermost block. -/
def own (m : Machine ν) (name : String) (handle : Handle ν) : Machine ν :=
  match m.control with
  | .block word rest handles value :: below =>
      { m with control := .block word rest ((name, handle) :: handles) value :: below }
  | _ => m

/-- Opens one handle. -/
def acquire (m : Machine ν) (name : String) (opening : Opening)
    (next : Machine ν → Machine ν) :
    Machine ν :=
  match opening with
  | .thread limits =>
      match m.openThread limits with
      | (.opened, m) => next (m.own name .thread)
      | (.refused error, m) => next (m.emit (.openFailed error))
      | (.overflowed, m) => m.unwind overflow
  | .region site =>
      m.perform (Context.enter site true) fun m visit =>
        next (m.own name (.region visit m.isPanicking))
  | .call site =>
      m.perform (Context.enterCall site) fun m entry =>
        next (m.own name (.call entry m.isPanicking))
  | .guards site => next (m.own name (.guards (.empty site m.isPanicking)))

/-! ## Guard bodies -/

/-- Registers a guard body in a scope; the first one marks the scope. -/
def registerGuard (m : Machine ν) (name : String) (flavor : Flavor)
    (body : List (Stmt ν)) :
    Machine ν :=
  match Handle.find? name m.control with
  | some (.guards scope) =>
      let add (m : Machine ν) (mark : Nat) : Machine ν :=
        let registered := scope.register mark flavor body
        { m with control := Handle.put name (.guards registered) m.control }.answer
          (.registered registered.count)
      match scope.mark with
      | some mark => add m mark
      | none => m.perform (Context.openScope scope.site) add
  | _ => m.goto (.complete none)

/-- Looks at the next body of a scope that is being left, and removes the mark of the
scope after the last one. -/
def leaveScope (m : Machine ν) (scope : Leaving ν) : Machine ν :=
  match scope.bodies with
  | [] => m.perform (Context.closeScope scope.mark) fun m _ => m.goto .next
  | (flavor, body) :: bodies =>
      if flavor.applies scope.unwinding then
        m.perform (Context.shield scope.mark) fun m _ =>
          (m.push (.guarding { scope with bodies })).enterBlock body
      else
        m.goto (.leaveScope { scope with bodies })

/-- A guard body has unwound. It must not, so the thread is terminated. -/
def guardFailed (m : Machine ν) (scope : Leaving ν) (payload : Payload) : Machine ν :=
  let m := m.caught
  let reason :=
    match payload, m.current? with
    | .raise, some exception => exception.text m.registry.table
    | .panic (some text), _ => text
    | _, _ => "panic"
  m.fatal (.corrupted (.guardBodyFailed scope.site reason)) none

/-! ## Giving up -/

/-- Drops a handle. On a terminated thread regions, calls and scopes are left as they
are. -/
def drop (m : Machine ν) (handle : Handle ν) : Machine ν :=
  match handle with
  | .thread => m.dropThread.goto .next
  | .region visit inUnwinding =>
      if m.poisoned then
        m.goto .next
      else if m.isPanicking && !inUnwinding then
        m.perform (Context.leave visit true) fun m _ => m.goto .next
      else
        m.perform (Context.abandon visit) fun m _ => m.goto .next
  | .call entry inUnwinding =>
      if m.poisoned then
        m.goto .next
      else
        m.perform (Context.leaveCall entry (m.isPanicking && !inUnwinding))
          fun m _ => m.goto .next
  | .guards scope =>
      match scope.mark with
      | none => m.goto .next
      | some mark =>
          if m.poisoned then
            m.goto .next
          else
            m.goto (.leaveScope
              ⟨scope.site, mark, m.isPanicking && !scope.inUnwinding, scope.bodies⟩)

/-- Gives up the handle that a name stands for. -/
def release (m : Machine ν) (name : String) (how : Closing) : Machine ν :=
  match Handle.take? name m.control with
  | none => m.goto (.complete none)
  | some (handle, control) =>
      let m := { m with control }
      match how, handle with
      | .forget, _ => m.goto (.complete none)
      | .leave, .region visit _ =>
          m.perform (Context.leave visit false) fun m _ => m.goto (.complete none)
      | .shutdown, .thread =>
          let (outcome, m) := m.closeThread
          m.answer (.shutdown outcome)
      | _, _ => (m.push .releasing).goto (.drop handle)

end Machine

end Unwinding
