import Unwinding.Proofs.Effects
import Unwinding.Proofs.Sound

/-!
# What a step can do

A machine takes many kinds of step, but as far as the bookkeeping goes there are few
things that a step can do: it enters, leaves or abandons a region, raises, forwards,
catches or hands over an exception, begins or ends a guard body, and so on, or it does
nothing. `Machine.deed` reads off a machine which of these its next step will do, and
`Machine.Did` says everything that laws about runs need to know of a step: how the
entries of the stacks change, what happens to the ledger, which exception the machine
then has in hand and which ones its variables hold.

`Machine.did_step` is the one place where the steps of the machine are gone through. It
holds of every step that does not terminate the thread; laws that build on it are proved
by cases on the deed.
-/

namespace Unwinding

open Context

/-! ## Deeds -/

/-- What becomes of the exception that a region is left with. -/
inductive Fate where
  | nothing
  /-- It goes on to the regions around. -/
  | sentOn (exception : Exception)
  /-- It ends in a variable. -/
  | kept (exception : Exception) (name : String)

/-- What a step does.

A step of the machine is one of many, but most of them are alike in what they do to the
bookkeeping. A deed names that, with the data it is about. What is followed along a run
(the entries of the stacks, the ledger, the history of the exceptions, the stages of
regions) is then followed deed by deed, and no proof has to go through the statements
again. -/
inductive Deed where
  | rests
  /-- No clause of a region fits the exception. -/
  | declines (exception : Exception)
  /-- The exception of a variable is to be raised again. -/
  | recalls (name : String)
  /-- Code that knows nothing of the runtime stops a raise. -/
  | stops
  | opens
  | closes
  | annotates (text : String)
  | enters (visit : Visit)
  | leaves (visit : Visit) (unwinding : Bool) (fate : Fate)
  | abandons (visit : Visit)
  | catches (visit : Visit) (exception : Exception)
  /-- A region catches the exception of an escape that it has to report. -/
  | reports (visit : Visit) (exception : Exception)
  /-- A clause puts the exception in its variable, and its handler begins. -/
  | handles (visit : Visit) (exception : Exception) (name : String)
  | raises (kind : Kind) (message : String) (origin : Site)
  | forwards (exception : Exception)
  | opensScope (mark : Nat)
  | closesScope (mark : Nat)
  | shields (mark : Nat)
  | unshields (mark : Nat)
  | entersCall (entry : Depths)
  | leavesCall (entry : Depths)

/-- A variable holds a value, in place of the one that it held. -/
def assigned {α : Type} (name : String) (value : α) (bindings : List (String × α)) :
    List (String × α) :=
  (name, value) :: bindings.filter fun (other, _) => other != name

namespace Deed

/-- A deed that leaves all entries as they are. -/
def IsQuiet : Deed → Prop
  | .rests => True
  | .declines _ => True
  | .recalls _ => True
  | .stops => True
  | .closesScope _ => True
  | _ => False

/-- What a deed does to the ledger. -/
def move : Deed → Move
  | .opens => .opens .thread
  | .closes => .closes
  | .enters visit => .opens (entered visit.explicit visit)
  | .leaves _ _ _ => .closes
  | .abandons _ => .closes
  | .catches _ exception => .turns (.clauses exception)
  | .reports _ exception => .turns (.clauses exception)
  | .handles _ exception _ => .turns (.handler exception)
  | .opensScope mark => .opens (.scope mark)
  | .closesScope _ => .closes
  | .shields mark => .opens (.guardBody mark)
  | .unshields _ => .closes
  | .entersCall entry => .opens (.call entry)
  | .leavesCall _ => .closes
  | _ => .stay

/-- The exception in hand when the deed is done. -/
def hand (bindings : List (String × Exception)) : Deed → Option Exception
  | .declines exception => some exception
  | .recalls name => bindings.lookup name
  | .leaves _ _ (.sentOn exception) => some exception
  | .catches _ exception => some exception
  | .reports _ exception => some exception
  | _ => none

/-- The exception that has to be in hand for the deed. -/
def spends? : Deed → Option Exception
  | .declines exception => some exception
  | .leaves _ _ (.sentOn exception) => some exception
  | .leaves _ _ (.kept exception _) => some exception
  | .handles _ exception _ => some exception
  | .forwards exception => some exception
  | _ => none

/-- The variables when the deed is done. -/
def bind (bindings : List (String × Exception)) : Deed → List (String × Exception)
  | .leaves _ _ (.kept exception name) => assigned name exception bindings
  | .handles _ exception name => assigned name exception bindings
  | _ => bindings

end Deed

/-! ## What a deed does to the entries -/

/-- Depths that were measured on these entries. -/
structure Entries.Measured (entries : Entries) (depths : Depths) : Prop where
  regions : depths.regions = entries.regions.length
  dispatch : depths.dispatch = entries.dispatch.length
  frames : depths.frames = entries.frames.length
  exceptions : depths.exceptions = entries.records.length

/-- The depths of a context count its entries. -/
theorem Context.measured (context : Context) :
    context.entries.Measured context.depths where
  regions := context.regions.depth_eq
  dispatch := context.dispatch.depth_eq
  frames := context.frames.depth_eq
  exceptions := context.records.length_toList.symm

/-- The entries of a thread that has just been opened. -/
def Entries.empty : Entries :=
  ⟨[], [], [], [], none, 1⟩

/-- The entries before and after a deed.

What the operations on the context do is put into words here once, and what follows from
a deed is derived from this. -/
inductive Deed.Turns : Deed → Entries → Entries → Prop
  | quiet {deed : Deed} {entries : Entries} (isQuiet : deed.IsQuiet) :
      Turns deed entries entries
  | annotates {entries : Entries} {text : String} :
      Turns (.annotates text) entries
        { entries with
          frames :=
            entries.frames.modifyHead fun frame => { frame with annotation := text } }
  | enters {entries : Entries} {visit : Visit} {state : RegionState}
      (number : visit.id = entries.nextId)
      (measured : entries.Measured visit.entry) :
      Turns (.enters visit) entries { entries with
        regions := ⟨visit, state⟩ :: entries.regions
        dispatch :=
          if visit.explicit = true then entries.dispatch else .region visit.id ::
          entries.dispatch
        frames := ⟨visit.site, ""⟩ :: entries.frames
        nextId := entries.nextId + 1 }
  | leaves {entries : Entries} {visit : Visit} {unwinding : Bool} {fate : Fate}
      {frame : Frame} {frames : List Frame}
      (isFramed : entries.frames = frame :: frames)
      (count : frames.length = visit.entry.frames) :
      Turns (.leaves visit unwinding fate) entries (entries.leave visit unwinding)
  | abandons {entries : Entries} {visit : Visit} {above below : List Frame}
      (isFramed : entries.frames = above ++ below)
      (count : below.length = visit.entry.frames) :
        Turns (.abandons visit) entries (entries.abandon visit below)
  | catches {entries : Entries} {visit : Visit} {region : Region} {outer : List Region}
      {index : Nat} {record : Record}
      (innermost : entries.regions = region :: outer)
      (inFlight : entries.inFlight = some index)
      (found : entries.records[index]? = some record) :
      Turns (.catches visit (record.against entries.frames)) entries { entries with
        regions := ⟨region.visit, .matching⟩ :: outer
        inFlight := none }
  | reports {entries : Entries} {visit : Visit} {region : Region} {outer : List Region}
      {kind : Kind} {message : String}
      {origin : Site} (innermost : entries.regions = region :: outer) :
      Turns
        (.reports visit
        ((⟨kind, message, origin, .live entries.frames.length⟩ : Record).against
        entries.frames)) entries
        { entries.raise kind message origin with
          regions := ⟨region.visit, .matching⟩ :: outer
          inFlight := none }
  | handles {entries : Entries} {visit : Visit} {exception : Exception} {name : String}
      {region : Region}
      {outer : List Region} {mark : Dispatch} {rest : List Dispatch}
      (innermost : entries.regions = region :: outer)
      (marked : entries.dispatch = mark :: rest) (own : mark.owner = visit.id) :
      Turns (.handles visit exception name) entries { entries with
        regions := ⟨region.visit, .handling⟩ :: outer
        dispatch := rest }
  | raises {entries : Entries} {kind : Kind} {message : String} {origin : Site}
      (isCaught : entries.dispatch ≠ []) :
      Turns (.raises kind message origin) entries (entries.raise kind message origin)
  | forwards {entries : Entries} {exception : Exception}
      (isCaught : entries.dispatch ≠ []) :
      Turns (.forwards exception) entries { entries with
        records := entries.records ++ [.ofException exception]
        inFlight := some entries.records.length }
  | opensScope {entries : Entries} {mark : Nat} (number : mark = entries.nextId) :
      Turns (.opensScope mark) entries { entries with nextId := entries.nextId + 1 }
  | shields {entries : Entries} {mark : Nat} :
      Turns (.shields mark) entries { entries with
        dispatch := .guard mark entries.inFlight :: entries.dispatch
        inFlight := none }
  | unshields {entries : Entries} {mark : Nat} {parked : Option Nat}
      {rest : List Dispatch}
      (marked : entries.dispatch = .guard mark parked :: rest) :
      Turns (.unshields mark)
        entries { entries with dispatch := rest, inFlight := parked }
  | entersCall {entries : Entries} {entry : Depths} {site : Site}
      (measured : entries.Measured entry) :
      Turns (.entersCall entry)
        entries { entries with frames := ⟨site, ""⟩ :: entries.frames }
  | leavesCall {entries : Entries} {entry : Depths} {above below : List Frame}
      (isFramed : entries.frames = above ++ below)
      (count : below.length = entry.frames) :
      Turns (.leavesCall entry) entries { entries with
        frames := below
        records :=
          entries.records.map fun record => record.settle entry.frames entries.frames }

/-- The same, where there may be no context. -/
inductive Deed.Acts : Deed → Option Entries → Option Entries → Prop
  | turns {deed : Deed} {before after : Entries} (h : deed.Turns before after) :
      Acts deed (some before) (some after)
  | quiet {deed : Deed} (isQuiet : deed.IsQuiet) : Acts deed none none
  | opens : Acts .opens none (some .empty)
  | closes {before : Option Entries} : Acts .closes before none

private theorem Deed.Acts.of_quiet {deed : Deed} {entries : Option Entries}
    (h : deed.IsQuiet) : deed.Acts entries entries := by
  cases entries with
  | none => exact .quiet h
  | some entries => exact .turns (.quiet h)

/-! ## Reading the next deed -/

/-- A guard body runs directly above its scope.

A guard body parks its record under the number of its scope, so the two have to be found
together. -/
def Seated (ledger : List Extent) : Prop :=
  ∀ mark rest, ledger = .guardBody mark :: rest → ∃ outer, rest = .scope mark :: outer

/-- The exception that a machine has in hand: it is tried on clauses, or what a region
is left with, or on its way to the regions around. -/
def Focus.carried? {ν : Type} : Focus ν → Option Exception
  | .offer _ exception => some exception
  | .leave _ (.error exception) => some exception
  | .forward exception => some exception
  | _ => none

/-- A raise whose message the next step completes: there is no piece left, or the next
one does not fit. -/
def Raising.finished? {ν : Type} (raising : Raising) : List (Piece ν) → Option Raising
  | [] => some raising
  | .text text :: _ =>
      match raising.buffer.write text with
      | (_, true) => none
      | (buffer, false) => some { raising with buffer }
  | .run _ :: _ => none

namespace Machine

variable {ν : Type}

/-- The entries of the context of a thread, if it has one. -/
def entries? (m : Machine ν) : Option Entries :=
  m.context.map Context.entries

/-- The deed of a step on the context, by what it answers. -/
def answering {α : Type} (m : Machine ν) (step : Step α) (deed : α → Deed) : Deed :=
  match m.context with
  | none => .rests
  | some context =>
      match step context with
      | .ok answer _ => deed answer
      | .error _ _ => .rests

/-- A context that is in use is not closed. -/
def closing (m : Machine ν) : Deed :=
  if m.inUse then .rests else .closes

/-- The deed of a statement. -/
def deedOf (m : Machine ν) : Stmt ν → Deed
  | .acquire _ (.thread limits) (_ + 1) =>
      match (m.openThread limits).1 with
      | .opened => .opens
      | _ => .rests
  | .acquire _ (.region site) (_ + 1) => m.answering (Context.enter site true) .enters
  | .acquire _ (.call site) (_ + 1) => m.answering (Context.enterCall site) .entersCall
  | .protect _ site _ _ _ => m.answering (Context.enter site false) .enters
  | .guard name _ _ =>
      match Handle.find? name m.control with
      | some (.guards scope) =>
          if scope.mark.isNone then m.answering (Context.openScope scope.site)
            .opensScope else .rests
      | _ => .rests
  | .release name how =>
      match Handle.take? name m.control, how with
      | some (.region visit _, _), .leave => .leaves visit false .nothing
      | some (.thread, _), .shutdown => m.closing
      | _, _ => .rests
  | .annotate text => if m.inUse || m.context.isNone then .rests else .annotates text
  | .rethrow name => .recalls name
  | _ => .rests

/-- What becomes of the outcome of a region. -/
def fate (mode : Mode) : Except Exception (Option ν) → Fate
  | .ok _ => .nothing
  | .error exception =>
      match mode with
      | .run => .sentOn exception
      | .attempt name => .kept exception name

/-- The message of a raise, once it is complete. -/
def messageOf (m : Machine ν) (raising : Raising) : String :=
  Context.messageOf m.registry.table raising.kind raising.buffer.text

/-- What the next step does. -/
def deed (m : Machine ν) : Deed :=
  match m.focus with
  | .exec stmt => m.deedOf stmt
  | .drop .thread => m.closing
  | .drop (.region visit inUnwinding) =>
      if m.isPanicking && !inUnwinding then .leaves visit true .nothing else
        .abandons visit
  | .drop (.call entry _) => .leavesCall entry
  | .leaveScope scope =>
      match scope.bodies with
      | [] => .closesScope scope.mark
      | (flavor, _) :: _ =>
          if flavor.applies scope.unwinding then .shields scope.mark else .rests
  | .deliver _ =>
      match m.control with
      | .body region :: _ =>
          m.answering (Context.claimEscape m.registry.slots region.visit) fun escape =>
            match escape with
            | none => .rests
            | some exception => .reports region.visit exception
      | .guarding scope :: _ => .unshields scope.mark
      | .thread true :: _ => m.closing
      | _ => .rests
  | .unwind payload =>
      match m.control with
      | .body region :: _ =>
          match payload with
          | .raise =>
              m.answering (Context.catchInFlight region.visit) (.catches region.visit)
          | _ => .leaves region.visit true .nothing
      | .handler region :: _ => .leaves region.visit true .nothing
      | .attempt _ :: _ =>
          match payload with
          | .raise => .stops
          | _ => .rests
      | .thread true :: _ => m.closing
      | _ => .rests
  | .offer region exception =>
      match region.clauses.zipIdx.find? fun (clause, _) =>
        m.registry.fits exception.kind clause.kind with
      | none => .declines exception
      | some (clause, _) => .handles region.visit exception clause.name
  | .leave region outcome => .leaves region.visit false (fate region.mode outcome)
  | .forward exception => .forwards exception
  | .write raising pieces =>
      match raising.finished? pieces with
      | some raising => .raises raising.kind (m.messageOf raising) raising.site
      | none => .rests
  | _ => .rests

private theorem spends_answering {α : Type} {m : Machine ν} {step : Step α}
    {deed : α → Deed} (hDeed : ∀ answer, (deed answer).spends? = none) :
    (m.answering step deed).spends? = none := by
  unfold answering
  split
  · rfl
  · split
    · exact hDeed _
    · rfl

private theorem spends_closing (m : Machine ν) : m.closing.spends? = none := by
  unfold closing
  split <;> rfl

private theorem spends_deedOf (m : Machine ν) (stmt : Stmt ν) :
    (m.deedOf stmt).spends? = none := by
  unfold deedOf
  split
  · split <;> rfl
  · exact spends_answering fun _ => rfl
  · exact spends_answering fun _ => rfl
  · exact spends_answering fun _ => rfl
  · split
    · split
      · exact spends_answering fun _ => rfl
      · rfl
    · rfl
  · split
    · rfl
    · exact spends_closing m
    · rfl
  · split <;> rfl
  · rfl
  · rfl

/-- A deed is done with the exception in hand. -/
theorem carried_of_spends {m : Machine ν} {exception : Exception}
    (h : m.deed.spends? = some exception) :
    m.focus.carried? = some exception := by
  have excluded (hNone : m.deed.spends? = none) {goal : Prop} :
      goal := by cases hNone.symm.trans h
  cases hFocus : m.focus with
  | offer region found =>
      simp only [deed, hFocus] at h
      split at h <;> exact h
  | leave region outcome =>
      simp only [deed, hFocus, fate] at h
      cases outcome with
      | ok value => cases h
      | error found => cases hMode : region.mode <;> rw [hMode] at h <;> exact h
  | forward found =>
      simp only [deed, hFocus] at h
      exact h
  | exec stmt =>
      refine excluded ?_
      simp only [deed, hFocus]
      exact spends_deedOf m stmt
  | drop handle =>
      refine excluded ?_
      simp only [deed, hFocus]
      cases handle with
      | thread => exact spends_closing m
      | region visit inUnwinding => dsimp only; split <;> rfl
      | call entry inUnwinding => rfl
      | guards scope => rfl
  | leaveScope scope =>
      refine excluded ?_
      simp only [deed, hFocus]
      split
      · rfl
      · split <;> rfl
  | deliver value =>
      refine excluded ?_
      simp only [deed, hFocus]
      split
      · refine spends_answering fun escape => ?_
        cases escape <;> rfl
      · rfl
      · exact spends_closing m
      · rfl
  | unwind payload =>
      refine excluded ?_
      simp only [deed, hFocus]
      split
      · split
        · exact spends_answering fun _ => rfl
        · rfl
      · rfl
      · split <;> rfl
      · exact spends_closing m
      · rfl
  | write raising pieces =>
      refine excluded ?_
      simp only [deed, hFocus]
      split <;> rfl
  | next => exact excluded (by simp only [deed, hFocus]; rfl)
  | complete value => exact excluded (by simp only [deed, hFocus]; rfl)
  | stopped how => exact excluded (by simp only [deed, hFocus]; rfl)

/-! ## What a step did -/

/-- A step from a machine to another has done a deed.

The deed of a machine is read off its state before the step. So a law may say what a
step does before anything is known of its outcome. -/
structure Did (m after : Machine ν) (deed : Deed) : Prop where
  acts : deed.Acts m.entries? after.entries?
  move : m.move = deed.move
  hand : after.focus.carried? = deed.hand m.bindings
  bindings : after.bindings = deed.bind m.bindings
  poised : ∀ ledger, m.InTurn ledger → Poised m.focus ledger → Seated ledger →
    Poised after.focus (deed.move.apply ledger)
  /-- The context is in use only while a message is being written; a deed on it shows
  that it is not. -/
  idle :
    (deed.IsQuiet → m.inUse = false ∧ ∀ kind site message,
    m.focus ≠ .exec (.raise kind site message)) →
    after.inUse = false

variable {m after : Machine ν}

/-- Where an operation would answer, the deed is read off its answer. -/
theorem answering_ok {α : Type} {step : Step α} {deed : α → Deed}
    {context left : Context} {answer : α} (hContext : m.context = some context)
    (hOk : step context = .ok answer left) :
    m.answering step deed = deed answer := by
  simp [answering, hContext, hOk]

/-- The entries of a thread with a context are those of the context. -/
theorem entries?_some {context : Context} (h : m.context = some context) :
    m.entries? = some context.entries := by
  rw [entries?, h]
  rfl

/-- A thread with entries has a context. -/
theorem exists_of_entries? {entries : Entries} (h : m.entries? = some entries) :
    ∃ context, m.context = some context ∧ context.entries = entries :=
  Option.map_eq_some_iff.1 h

/-- A step that does nothing and takes no exception in hand. -/
theorem did_rests (hDeed : m.deed = .rests) (hMove : m.move = .stay)
    (hContext : after.context = m.context) (hHand : after.focus.carried? = none)
    (hBindings : after.bindings = m.bindings)
    (hPoised : ∀ ledger, m.InTurn ledger → Poised m.focus ledger → Seated ledger →
      Poised after.focus ledger)
    (hIdle : m.inUse = false →
      (∀ kind site message, m.focus ≠ .exec (.raise kind site message)) →
      after.inUse = false) :
    m.Did after m.deed := by
  rw [hDeed]
  have hEntries : after.entries? = m.entries? := by rw [entries?, hContext]; rfl
  refine ⟨?_, hMove, hHand, hBindings, hPoised,
    fun h => hIdle (h trivial).1 (h trivial).2⟩
  rw [hEntries]
  exact .of_quiet trivial

/-- A step on the context that answers has done what its operation does to the
entries. -/
theorem acts_answered {context left : Context} {deed : Deed}
    (hContext : m.context = some context) (hAfter : after.entries? = some left.entries)
    (h : deed.Turns context.entries left.entries) :
    deed.Acts m.entries? after.entries? := by
  rw [entries?_some hContext, hAfter]
  exact .turns h

/-- A step that has done its deed, and after which there is plain code. -/
theorem did_answered {deed : Deed} (hActs : deed.Acts m.entries? after.entries?)
    (hMove : m.move = deed.move) (hHand : after.focus.carried? = deed.hand m.bindings)
    (hBindings : after.bindings = deed.bind m.bindings) (hIdle : after.inUse = false)
    (hPoised : ∀ ledger, Poised after.focus ledger) : m.Did after deed where
  acts := hActs
  move := hMove
  hand := hHand
  bindings := hBindings
  poised := fun _ _ _ _ => hPoised _
  idle := fun _ => hIdle

/-- A step on the context has done what its operation does. -/
theorem did_perform {α : Type} {popped : Machine ν} {step : Step α}
    {next : Machine ν → α → Machine ν} {deed : Deed}
    (hContext : popped.context = m.context)
    (hGoesOn : (popped.perform step next).poisoned = false)
    (hDid : ∀ context answer left, m.context = some context →
      step context = .ok answer left → popped.inUse = false →
      (next (popped.store left) answer).poisoned = false →
        m.Did (next (popped.store left) answer) deed) :
    m.Did (popped.perform step next) deed := by
  have hFree : popped.inUse = false := by
    cases hUse : popped.inUse with
    | false => rfl
    | true =>
        unfold perform at hGoesOn
        rw [if_pos hUse] at hGoesOn
        cases hGoesOn.symm.trans (poisoned_terminate _ _)
  obtain ⟨context, answer, left, hSome, hOk, hStep⟩ := perform_goesOn hGoesOn
  rw [hStep] at hGoesOn ⊢
  exact hDid context answer left (hContext ▸ hSome) hOk hFree hGoesOn

/-! ## Statements and handles -/

/-- To open a context leaves the variables alone, and whether a step is in progress. -/
theorem openThread_same (m : Machine ν) (limits : Option Limits) :
    (m.openThread limits).2.bindings = m.bindings ∧ (m.openThread limits).2.inUse =
      m.inUse := by
  unfold openThread installed
  cases m.config <;> dsimp only <;> split <;>
    first | exact ⟨rfl, rfl⟩ | (split <;> exact ⟨rfl, rfl⟩)

/-- A context that is in use is not opened a second time. -/
theorem idle_of_opened {limits : Option Limits}
    (h : (m.openThread limits).1 = .opened) : m.inUse = false := by
  cases hUse : m.inUse with
  | false => rfl
  | true =>
      unfold openThread installed isInitialized at h
      cases hConfig : m.config <;> simp [hConfig, hUse] at h <;> split at h <;> cases h

/-- So does coming to own a handle. -/
theorem own_same (m : Machine ν) (name : String) (handle : Handle ν) :
    (m.own name handle).bindings = m.bindings ∧ (m.own name handle).inUse =
      m.inUse := by
  unfold own
  split <;> exact ⟨rfl, rfl⟩

private theorem entries?_own (m : Machine ν) (name : String) (handle : Handle ν) :
    (m.own name handle).entries? = m.entries? := by
  rw [entries?, context_own]
  rfl

/-- A region has been entered, explicit or protected. -/
theorem turns_enter {context : Context} {site : Site} {explicit : Bool} {visit : Visit}
    {state : RegionState}
    (hVisit : visit = ⟨context.nextId, site, context.depths, explicit⟩) :
    Deed.Turns (.enters visit) context.entries { context.entries with
      regions := ⟨visit, state⟩ :: context.entries.regions
      dispatch :=
        if explicit = true then context.entries.dispatch else .region visit.id ::
        context.entries.dispatch
      frames := ⟨site, ""⟩ :: context.entries.frames
      nextId := context.nextId + 1 } := by
  subst hVisit
  exact .enters rfl context.measured

/-- Opening the thread, by what comes of it. -/
theorem did_acquireThread {name : String} {limits : Option Limits} {times : Nat}
    (hFocus : m.focus = .exec (.acquire name (.thread limits) (times + 1))) :
    m.Did
      (m.acquire name (.thread limits) fun m =>
      m.goto (.exec (.acquire name (.thread limits) times))) m.deed := by
  have hCases := context_openThread m limits
  have hSame := openThread_same m limits
  cases hOpen : m.openThread limits with
  | mk outcome opened =>
      rw [hOpen] at hCases hSame
      obtain ⟨hBindings, hInUse⟩ := hSame
      simp only [acquire, hOpen]
      obtain ⟨hRefused, hContext, -⟩ | ⟨hOpened, hNone, -, config, limits', hContext⟩ :=
        hCases
      · cases outcome with
        | opened => exact absurd rfl hRefused
        | refused error =>
            exact did_rests (by simp only [deed, deedOf, hFocus, hOpen])
              (by simp only [move, hFocus, hOpen])
              hContext rfl hBindings (fun _ _ _ _ => trivial) fun h _ => hInUse.trans h
        | overflowed =>
            exact did_rests (by simp only [deed, deedOf, hFocus, hOpen])
              (by simp only [move, hFocus, hOpen])
              hContext rfl hBindings (fun _ _ _ _ => trivial) fun h _ => hInUse.trans h
      · obtain rfl : outcome = .opened := hOpened
        have hDeed : m.deed = .opens := by simp only [deed, deedOf, hFocus, hOpen]
        have hBefore : m.entries? = none := by rw [entries?, hNone]; rfl
        have hAfter : (opened.own name .thread).entries? = some .empty := by
          rw [entries?, context_own, hContext]
          rfl
        rw [hDeed]
        have hOpens :
            Deed.Acts .opens m.entries? (opened.own name .thread).entries? := by
          rw [hBefore, hAfter]
          exact .opens
        have hIdle : m.inUse = false := idle_of_opened (by rw [hOpen])
        exact did_answered hOpens (by simp only [move, hFocus, hOpen, Deed.move])
          rfl ((own_same _ _ _).1.trans hBindings)
          ((own_same _ _ _).2.trans (hInUse.trans hIdle)) fun _ => trivial

private theorem did_acquire {name : String} {opening : Opening} {times : Nat}
    (hFocus : m.focus = .exec (.acquire name opening (times + 1)))
    (hGoesOn :
      (m.acquire name opening fun m =>
      m.goto (.exec (.acquire name opening times))).poisoned = false) :
    m.Did (m.acquire name opening fun m => m.goto (.exec (.acquire name opening times)))
      m.deed := by
  cases opening with
  | thread limits => exact did_acquireThread hFocus
  | region site =>
      refine did_perform rfl hGoesOn fun context visit left hContext hOk hFree _ => ?_
      have hDeed : m.deed = .enters visit := by
        simp only [deed, deedOf, hFocus, answering_ok hContext hOk]
      obtain ⟨hVisit, state, hLeft⟩ := effect_enter.of_ok hOk
      have hExplicit : visit.explicit = true := by rw [hVisit]
      rw [hDeed]
      exact did_answered
        (acts_answered hContext (entries?_own _ _ _) (hLeft ▸ turns_enter hVisit))
        (by
          simp only [move, hFocus, after_ok hContext hOk, Deed.move, entered, hExplicit,
            if_true])
        rfl (own_same _ _ _).1 ((own_same _ _ _).2.trans hFree) fun _ => trivial
  | call site =>
      refine did_perform rfl hGoesOn fun context entry left hContext hOk hFree _ => ?_
      have hDeed : m.deed = .entersCall entry := by
        simp only [deed, deedOf, hFocus, answering_ok hContext hOk]
      obtain ⟨hEntry, hLeft⟩ := effect_enterCall.of_ok hOk
      rw [hDeed]
      exact did_answered
        (acts_answered hContext (entries?_own _ _ _)
        (hLeft ▸ .entersCall (hEntry ▸ context.measured)))
        (by simp only [move, hFocus, after_ok hContext hOk, Deed.move])
        rfl (own_same _ _ _).1 ((own_same _ _ _).2.trans hFree) fun _ => trivial
  | guards site =>
      exact did_rests (by simp only [deed, deedOf, hFocus])
        (by simp only [move, hFocus]) (context_own _ _ _) rfl
        (own_same _ _ _).1 (fun _ _ _ _ => trivial)
          fun h _ => (own_same _ _ _).2.trans h

private theorem did_registerGuard {name : String} {flavor : Flavor}
    {body : List (Stmt ν)} (hFocus : m.focus = .exec (.guard name flavor body))
    (hGoesOn : (m.registerGuard name flavor body).poisoned = false) :
    m.Did (m.registerGuard name flavor body) m.deed := by
  unfold registerGuard at hGoesOn ⊢
  cases hFind : Handle.find? name m.control with
  | none =>
      exact did_rests (by simp only [deed, deedOf, hFocus, hFind])
        (by simp only [move, hFocus, hFind]) rfl rfl rfl
        (fun _ _ _ _ => trivial) fun h _ => h
  | some handle =>
      rw [hFind] at hGoesOn
      cases handle with
      | guards scope =>
          dsimp only at hGoesOn ⊢
          cases hMark : scope.mark with
          | some mark =>
              exact did_rests (by simp [deed, deedOf, hFocus, hFind, hMark])
                (by simp [move, hFocus, hFind, hMark])
                rfl rfl rfl (fun _ _ _ _ => trivial) fun h _ => h
          | none =>
              rw [hMark] at hGoesOn
              refine did_perform rfl hGoesOn fun context mark left hContext hOk hFree
                _ => ?_
              have hDeed : m.deed = .opensScope mark := by
                simp only [deed, deedOf, hFocus, hFind, hMark, Option.isNone_none,
                  if_true, answering_ok hContext hOk]
              obtain ⟨hNumber, hLeft⟩ := effect_openScope.of_ok hOk
              rw [hDeed]
              exact did_answered
                (acts_answered hContext rfl (hLeft ▸ .opensScope hNumber))
                (by
                  simp only [move, hFocus, hFind, hMark, Option.isNone_none, if_true,
                    after_ok hContext hOk, Deed.move])
                rfl rfl hFree fun _ => trivial
      | thread =>
          exact did_rests (by simp only [deed, deedOf, hFocus, hFind])
            (by simp only [move, hFocus, hFind]) rfl rfl rfl
            (fun _ _ _ _ => trivial) fun h _ => h
      | region visit inUnwinding =>
          exact did_rests (by simp only [deed, deedOf, hFocus, hFind])
            (by simp only [move, hFocus, hFind]) rfl rfl rfl
            (fun _ _ _ _ => trivial) fun h _ => h
      | call entry inUnwinding =>
          exact did_rests (by simp only [deed, deedOf, hFocus, hFind])
            (by simp only [move, hFocus, hFind]) rfl rfl rfl
            (fun _ _ _ _ => trivial) fun h _ => h

/-- The context is closed, unless it is in use. -/
theorem did_closing (hDeed : m.deed = m.closing) (hMove : m.move = m.closesThread)
    (hContext : after.context = if m.inUse = true then m.context else none)
    (hHand : after.focus.carried? = none) (hBindings : after.bindings = m.bindings)
    (hIdle : after.inUse = m.inUse) (hPoised : ∀ ledger, Poised after.focus ledger) :
    m.Did after m.deed := by
  cases hUse : m.inUse with
  | true =>
      have hRests : m.deed = .rests := by rw [hDeed, closing, if_pos hUse]
      have hStay : m.move = .stay := by rw [hMove, closesThread, if_pos hUse]
      exact did_rests hRests hStay (by rw [hContext, if_pos hUse]) hHand hBindings
        (fun ledger _ _ _ => hPoised ledger)
        fun h _ => hIdle.trans h
  | false =>
      have hCloses : m.deed = .closes := by rw [hDeed, closing, hUse]; rfl
      have hNone : after.entries? = none := by rw [entries?, hContext, hUse]; rfl
      have hShuts : m.move = .closes := by rw [hMove, closesThread, hUse]; rfl
      rw [hCloses]
      refine did_answered ?_ hShuts hHand hBindings (hIdle.trans hUse) hPoised
      rw [hNone]
      exact .closes

/-- So does closing the context. -/
theorem closeThread_same (m : Machine ν) :
    m.closeThread.2.bindings = m.bindings ∧ m.closeThread.2.inUse = m.inUse := by
  unfold closeThread
  repeat' split
  all_goals exact ⟨rfl, rfl⟩

/-- So does dropping its handle. -/
theorem dropThread_same (m : Machine ν) :
    m.dropThread.bindings = m.bindings ∧ m.dropThread.inUse = m.inUse := by
  unfold dropThread
  split
  · split <;> exact ⟨rfl, rfl⟩
  · have hSame := closeThread_same m
    cases hClose : m.closeThread with
    | mk outcome closed =>
        rw [hClose] at hSame
        cases outcome <;> exact hSame

/-- A region is left, by its handle or by its code. -/
theorem acts_leave {context left : Context} {visit : Visit} {unwinding : Bool}
    {fate : Fate} (hContext : m.context = some context)
    (hOk : Context.leave visit unwinding context = .ok () left)
    (hAfter : after.entries? = some left.entries) :
    Deed.Acts (.leaves visit unwinding fate) m.entries? after.entries? := by
  obtain ⟨region, outer, frame, frames, -, -, hFrames, hCount, hLeft⟩ :=
    effect_leave.of_ok hOk
  exact acts_answered hContext hAfter (hLeft ▸ .leaves hFrames hCount)

private theorem did_release {name : String} {how : Closing}
    (hClear : m.poisoned = false) (hFocus : m.focus = .exec (.release name how))
    (hGoesOn : (m.release name how).poisoned = false) :
    m.Did (m.release name how) m.deed := by
  unfold release at hGoesOn ⊢
  cases hTake : Handle.take? name m.control with
  | none =>
      exact did_rests (by simp only [deed, deedOf, hFocus, hTake])
        (by simp only [move, hFocus, hTake]) rfl rfl rfl
        (fun _ _ _ _ => trivial) fun h _ => h
  | some taken =>
      obtain ⟨handle, control⟩ := taken
      rw [hTake] at hGoesOn
      have rests {after : Machine ν} (hDeed : m.deed = .rests) (hMove : m.move = .stay)
          (hAfter : after.context = m.context ∧ after.bindings = m.bindings ∧
            after.inUse = m.inUse ∧
            (after.focus = .complete none ∨ after.focus = .drop handle)) :
            m.Did after m.deed := by
        obtain ⟨hContext, hBindings, hUse, hAfter | hAfter⟩ := hAfter <;>
          exact did_rests hDeed hMove hContext (by rw [hAfter]; rfl) hBindings
            (fun _ _ _ _ => by rw [hAfter]; trivial) fun h _ => hUse.trans h
      cases how with
      | drop =>
          cases handle <;> exact rests (by simp only [deed, deedOf, hFocus, hTake])
            (by simp only [move, hFocus, hTake]) ⟨rfl, rfl, rfl, .inr rfl⟩
      | forget =>
          cases handle <;> exact rests (by simp only [deed, deedOf, hFocus, hTake])
            (by simp only [move, hFocus, hTake]) ⟨rfl, rfl, rfl, .inl rfl⟩
      | leave =>
          cases handle with
          | region visit inUnwinding =>
              refine did_perform rfl hGoesOn fun context _ left hContext hOk hFree _ =>
                ?_
              have hDeed : m.deed = .leaves visit false .nothing := by
                simp only [deed, deedOf, hFocus, hTake]
              rw [hDeed]
              exact did_answered (acts_leave hContext hOk rfl)
                (by simp only [move, hFocus, hTake, Deed.move]) rfl rfl hFree
                  fun _ => trivial
          | _ => exact rests (by simp only [deed, deedOf, hFocus, hTake])
                  (by simp only [move, hFocus, hTake]) ⟨rfl, rfl, rfl, .inr rfl⟩
      | shutdown =>
          cases handle with
          | thread =>
              obtain ⟨-, -, -, hContext⟩ :=
                closeThread_clear (m := { m with control }) hClear
              obtain ⟨hBindings, hUse⟩ :=
                closeThread_same ({ m with control } : Machine ν)
              exact did_closing (by simp only [deed, deedOf, hFocus, hTake])
                (by simp only [move, hFocus, hTake])
                hContext rfl hBindings hUse fun _ => trivial
          | _ => exact rests (by simp only [deed, deedOf, hFocus, hTake])
                  (by simp only [move, hFocus, hTake]) ⟨rfl, rfl, rfl, .inr rfl⟩

private theorem did_drop {handle : Handle ν} (hClear : m.poisoned = false)
    (hFocus : m.focus = .drop handle) (hGoesOn : (m.drop handle).poisoned = false) :
    m.Did (m.drop handle) m.deed := by
  unfold drop at hGoesOn ⊢
  cases handle with
  | thread =>
      obtain ⟨-, -, -, hContext⟩ := dropThread_clear hClear
      obtain ⟨hBindings, hUse⟩ := dropThread_same m
      exact did_closing (by simp only [deed, hFocus]) (by simp only [move, hFocus])
        hContext rfl hBindings hUse fun _ => trivial
  | region visit inUnwinding =>
      simp only [hClear, Bool.false_eq_true, if_false] at hGoesOn ⊢
      split at hGoesOn
      · next hLeaves =>
          rw [if_pos hLeaves]
          refine did_perform rfl hGoesOn fun context _ left hContext hOk hFree _ => ?_
          have hDeed : m.deed = .leaves visit true .nothing := by
            simp only [deed, hFocus, if_pos hLeaves]
          rw [hDeed]
          exact did_answered (acts_leave hContext hOk rfl)
            (by simp only [move, hFocus, Deed.move]) rfl rfl hFree fun _ => trivial
      · next hAbandons =>
          rw [if_neg hAbandons]
          refine did_perform rfl hGoesOn fun context _ left hContext hOk hFree _ => ?_
          have hDeed : m.deed = .abandons visit := by
            simp only [deed, hFocus, if_neg hAbandons]
          obtain ⟨above, below, hFrames, hCount, hLeft⟩ := effect_abandon.of_ok hOk
          rw [hDeed]
          exact did_answered
            (acts_answered hContext rfl (hLeft ▸ .abandons hFrames hCount))
            (by simp only [move, hFocus, Deed.move]) rfl rfl hFree fun _ => trivial
  | call entry inUnwinding =>
      simp only [hClear, Bool.false_eq_true, if_false] at hGoesOn ⊢
      refine did_perform rfl hGoesOn fun context _ left hContext hOk hFree _ => ?_
      have hDeed : m.deed = .leavesCall entry := by simp only [deed, hFocus]
      obtain ⟨above, below, hFrames, hCount, hLeft⟩ := effect_leaveCall.of_ok hOk
      rw [hDeed]
      exact did_answered
        (acts_answered hContext rfl (hLeft ▸ .leavesCall hFrames hCount))
        (by simp only [move, hFocus, Deed.move]) rfl rfl hFree fun _ => trivial
  | guards scope =>
      dsimp only at hGoesOn ⊢
      cases hMark : scope.mark with
      | none =>
          exact did_rests (by simp only [deed, hFocus]) (by simp only [move, hFocus])
            rfl rfl rfl
            (fun _ _ _ _ => trivial) fun h _ => h
      | some mark =>
          simp only [hClear, Bool.false_eq_true, if_false]
          refine did_rests (by simp only [deed, hFocus]) (by simp only [move, hFocus])
            rfl rfl rfl
            (fun ledger hTurn _ _ => ?_) fun h _ => h
          have hHead :=
            hTurn.closing (.scope mark)
            (by simp [closing?, hFocus, Handle.extent?, hMark])
          exact List.head?_eq_some_iff.1 hHead

/-! ## Guard bodies -/

private theorem did_leaveScope {scope : Leaving ν}
    (hFocus : m.focus = .leaveScope scope)
    (hGoesOn : (m.leaveScope scope).poisoned = false) :
    m.Did (m.leaveScope scope) m.deed := by
  unfold leaveScope at hGoesOn ⊢
  cases hBodies : scope.bodies with
  | nil =>
      rw [hBodies] at hGoesOn
      refine did_perform rfl hGoesOn fun context _ left hContext hOk hFree _ => ?_
      have hDeed : m.deed = .closesScope scope.mark := by
        simp only [deed, hFocus, hBodies]
      have hLeft := effect_closeScope.of_ok hOk
      rw [hDeed]
      exact did_answered (acts_answered hContext rfl (hLeft ▸ .quiet trivial))
        (by simp only [move, hFocus, hBodies, Deed.move]) rfl rfl hFree fun _ => trivial
  | cons registered bodies =>
      obtain ⟨flavor, body⟩ := registered
      rw [hBodies] at hGoesOn
      dsimp only at hGoesOn ⊢
      split at hGoesOn
      · next hApplies =>
          rw [if_pos hApplies]
          refine did_perform rfl hGoesOn fun context _ left hContext hOk hFree _ => ?_
          have hDeed : m.deed = .shields scope.mark := by
            simp only [deed, hFocus, hBodies, if_pos hApplies]
          have hLeft := effect_shield.of_ok hOk
          rw [hDeed]
          exact did_answered (acts_answered hContext rfl (hLeft ▸ .shields))
            (by simp only [move, hFocus, hBodies, if_pos hApplies, Deed.move])
              rfl rfl hFree fun _ => trivial
      · next hSkips =>
          rw [if_neg hSkips]
          refine did_rests (by simp only [deed, hFocus, hBodies, if_neg hSkips])
            (by simp only [move, hFocus, hBodies, if_neg hSkips]) rfl rfl rfl
              (fun ledger _ hPoised _ => ?_) fun h _ => h
          rw [hFocus] at hPoised
          exact hPoised

/-! ## Raises -/

/-- A raise begins with its message. -/
theorem did_raise {ref : KindRef} {site : Site} {message : List (Piece ν)}
    (hFocus : m.focus = .exec (.raise ref site message))
    (hGoesOn : (m.raise ref site message).poisoned = false) :
    m.Did (m.raise ref site message) m.deed := by
  have hDeed : m.deed = .rests := by simp only [deed, deedOf, hFocus]
  unfold raise at hGoesOn ⊢
  cases hKind : ref.resolve? m.registry.slots with
  | none =>
      rw [hKind] at hGoesOn
      cases hGoesOn.symm.trans (poisoned_terminate _ _)
  | some kind =>
      rw [hKind] at hGoesOn
      refine did_perform rfl hGoesOn fun context limit left hContext hOk _ _ => ?_
      have hSame : Yields ((do
          let _ ← Context.ofExcept (m.registry.table.entry kind)
          return (← get).messageLimit : Step Nat) context) fun _ after => after =
            context :=
        ends_bind (ends_ofExcept (fun _ _ => ends_bind (ends_get (ends_pure rfl)))
          fun _ _ => trivial)
      obtain rfl := hSame.of_ok hOk
      rw [hDeed]
      exact {
        acts := acts_answered hContext rfl (.quiet trivial)
        move := by simp only [move, hFocus, Deed.move]
        hand := rfl
        bindings := rfl
        poised := fun _ _ _ _ => trivial
        idle := fun h => absurd hFocus ((h trivial).2 ref site message) }

private theorem did_finishRaise {raising : Raising}
    (hDeed : m.deed = .raises raising.kind (m.messageOf raising) raising.site)
    (hMove : m.move = .stay) (hGoesOn : (m.finishRaise raising).poisoned = false) :
    m.Did (m.finishRaise raising) m.deed := by
  unfold finishRaise at hGoesOn ⊢
  have hFreed : ({ m with inUse := false } : Machine ν).context = m.context := rfl
  refine did_perform hFreed hGoesOn fun context uncaught left hContext hOk hFree hOn =>
    ?_
  obtain ⟨rfl, hCaught, hLeft⟩ | ⟨exception, rfl, -⟩ := effect_raise.of_ok hOk
  · rw [hDeed]
    exact did_answered (acts_answered hContext rfl (hLeft ▸ .raises hCaught))
      hMove rfl rfl rfl fun _ => trivial
  · cases hOn.symm.trans (poisoned_terminate _ _)

private theorem did_write {raising : Raising} {pieces : List (Piece ν)}
    (hFocus : m.focus = .write raising pieces)
    (hGoesOn : (m.write raising pieces).poisoned = false) :
    m.Did (m.write raising pieces) m.deed := by
  have hMove : m.move = .stay := by simp only [move, hFocus]
  cases pieces with
  | nil =>
      exact did_finishRaise (by simp only [deed, hFocus, Raising.finished?])
        hMove hGoesOn
  | cons piece rest =>
      cases piece with
      | run body =>
          exact did_rests (by simp only [deed, hFocus, Raising.finished?])
            hMove rfl rfl rfl (fun _ _ _ _ => trivial)
            fun h _ => h
      | text text =>
          cases hWrite : raising.buffer.write text with
          | mk buffer fits =>
              simp only [write, hWrite] at hGoesOn ⊢
              cases fits with
              | true =>
                  exact did_rests
                    (by simp only [deed, hFocus, Raising.finished?, hWrite])
                    hMove rfl rfl rfl
                    (fun _ _ _ _ => trivial) fun h _ => h
              | false =>
                  exact did_finishRaise
                    (by simp only [deed, hFocus, Raising.finished?, hWrite])
                    hMove hGoesOn

private theorem did_forward {exception : Exception}
    (hFocus : m.focus = .forward exception)
    (hGoesOn : (m.forward exception).poisoned = false) :
    m.Did (m.forward exception) m.deed := by
  unfold forward at hGoesOn ⊢
  refine did_perform rfl hGoesOn fun context uncaught left hContext hOk hFree hOn => ?_
  have hDeed : m.deed = .forwards exception := by simp only [deed, hFocus]
  obtain ⟨rfl, hCaught, hLeft⟩ | rfl := effect_forward.of_ok hOk
  · rw [hDeed]
    exact did_answered (acts_answered hContext rfl (hLeft ▸ .forwards hCaught))
      (by simp only [move, hFocus, Deed.move]) rfl rfl hFree fun _ => trivial
  · cases hOn.symm.trans (poisoned_terminate _ _)

/-! ## Protected regions -/

private theorem did_protect {levels : Nat} {site : Site} {mode : Mode}
    {clauses : List (Clause ν)} {body : List (Stmt ν)}
    (hFocus : m.focus = .exec (.protect levels site mode clauses body))
    (hGoesOn : (m.protect levels site mode clauses body).poisoned = false) :
    m.Did (m.protect levels site mode clauses body) m.deed := by
  unfold protect at hGoesOn ⊢
  refine did_perform rfl hGoesOn fun context visit left hContext hOk hFree _ => ?_
  have hDeed : m.deed = .enters visit := by
    simp only [deed, deedOf, hFocus, answering_ok hContext hOk]
  obtain ⟨hVisit, state, hLeft⟩ := effect_enter.of_ok hOk
  have hProtected : visit.explicit = false := by rw [hVisit]
  have hMove : m.move = (Deed.enters visit).move := by
    simp only [move, hFocus, after_ok hContext hOk, Deed.move, entered, hProtected,
      Bool.false_eq_true, if_false]
  rw [hDeed]
  have entered {after : Machine ν} (hContext' : after.context = (m.store left).context)
    (hBindings : after.bindings = m.bindings)
    (hUse : after.inUse = m.inUse) (hFocus' : after.focus = .next ∨ ∃ stmt,
        after.focus = .exec stmt) :
      m.Did after (.enters visit) := by
    have hCode : after.focus.carried? = none ∧ ∀ ledger, Poised after.focus ledger := by
      obtain hNext | ⟨stmt, hStmt⟩ := hFocus'
      · rw [hNext]
        exact ⟨rfl, fun _ => trivial⟩
      · rw [hStmt]
        exact ⟨rfl, fun _ => trivial⟩
    have hEntries : after.entries? = some left.entries := by
      rw [entries?, hContext']; rfl
    exact did_answered (acts_answered hContext hEntries (hLeft ▸ turns_enter hVisit))
      hMove hCode.1 hBindings (hUse.trans hFree) hCode.2
  cases levels with
  | zero => exact entered rfl rfl rfl (.inl rfl)
  | succ inner =>
      cases inner with
      | zero => exact entered rfl rfl rfl (.inl rfl)
      | succ inner => exact entered rfl rfl rfl (.inr ⟨_, rfl⟩)

private theorem did_offer {region : Protected ν} {exception : Exception}
    (hFocus : m.focus = .offer region exception)
    (hGoesOn : (m.offer region exception).poisoned = false) :
    m.Did (m.offer region exception) m.deed := by
  unfold offer at hGoesOn ⊢
  dsimp only at hGoesOn ⊢
  cases hFind : region.clauses.zipIdx.find? fun (clause, _) =>
    m.registry.fits exception.kind clause.kind with
  | none =>
      have hDeed : m.deed = .declines exception := by simp only [deed, hFocus, hFind]
      rw [hDeed]
      exact {
        acts := .of_quiet trivial
        move := by simp only [move, hFocus, hFind, Deed.move]
        hand := rfl
        bindings := rfl
        poised := fun ledger _ hPoised _ => by
          rw [hFocus] at hPoised
          obtain ⟨rest, rfl⟩ := hPoised
          exact ⟨_, rest, rfl⟩
        idle := fun h => (h trivial).1 }
  | some found =>
      obtain ⟨clause, index⟩ := found
      rw [hFind] at hGoesOn
      refine did_perform rfl hGoesOn fun context _ left hContext hOk hFree _ => ?_
      have hDeed : m.deed = .handles region.visit exception clause.name := by
        simp only [deed, hFocus, hFind]
      obtain ⟨innermost, outer, mark, rest, hRegions, -, hDispatch, hOwner, hLeft⟩ :=
        effect_beginHandling.of_ok hOk
      rw [hDeed]
      exact did_answered
        (acts_answered hContext rfl (hLeft ▸ .handles hRegions hDispatch hOwner))
        (by simp only [move, hFocus, hFind, Deed.move]) rfl rfl hFree fun _ => trivial

private theorem did_leave {region : Protected ν} {outcome : Except Exception (Option ν)}
    (hFocus : m.focus = .leave region outcome)
    (hGoesOn : (m.leave region outcome).poisoned = false) :
    m.Did (m.leave region outcome) m.deed := by
  unfold leave at hGoesOn ⊢
  refine did_perform rfl hGoesOn fun context _ left hContext hOk hFree _ => ?_
  have hDeed : m.deed = .leaves region.visit false (fate region.mode outcome) := by
    simp only [deed, hFocus]
  have hMove : m.move = .closes := by simp only [move, hFocus]
  rw [hDeed]
  cases outcome with
  | ok value =>
      cases hMode : region.mode <;>
        exact did_answered (acts_leave hContext hOk rfl) hMove rfl rfl hFree
        fun _ => trivial
  | error exception =>
      cases hMode : region.mode <;>
        exact did_answered (acts_leave hContext hOk rfl) hMove rfl rfl hFree
        fun _ => trivial

/-- An unwinding leaves a protected region, whose code has been taken off the waiting
code. -/
theorem did_passThrough {popped : Machine ν} {region : Protected ν} {payload : Payload}
    (hDeed : m.deed = .leaves region.visit true .nothing) (hMove : m.move = .closes)
    (hClear : popped.poisoned = false) (hContext : popped.context = m.context)
    (hBindings : popped.bindings = m.bindings)
    (hGoesOn : (popped.passThrough region payload).poisoned = false) :
    m.Did (popped.passThrough region payload) m.deed := by
  unfold passThrough at hGoesOn ⊢
  simp only [hClear, Bool.false_eq_true, if_false] at hGoesOn ⊢
  refine did_perform hContext hGoesOn fun context _ left hSome hOk hFree _ => ?_
  rw [hDeed]
  exact did_answered (acts_leave hSome hOk rfl) hMove rfl hBindings hFree
    fun _ => trivial

/-! ## All statements -/

/-- So do any number of notices. -/
theorem foldl_note_bindings (notices : List Notice) (m : Machine ν) :
    (notices.foldl note m).bindings = m.bindings ∧ (notices.foldl note m).inUse =
      m.inUse := by
  induction notices generalizing m with
  | nil => exact ⟨rfl, rfl⟩
  | cons notice rest ih => exact ih (m.note notice)

private theorem did_annotate {text : String}
    (hFocus : m.focus = .exec (.annotate text)) :
    m.Did (m.exec (.annotate text)) m.deed := by
  have hMove : m.move = .stay := by simp only [move, hFocus]
  simp only [exec, ask]
  cases hUse : m.inUse with
  | true =>
      exact did_rests (by simp [deed, deedOf, hFocus, hUse]) hMove rfl rfl rfl
        (fun _ _ _ _ => trivial) fun h _ => h
  | false =>
      cases hContext : m.context with
      | none =>
          exact did_rests (by simp [deed, deedOf, hFocus, hContext]) hMove rfl rfl rfl
            (fun _ _ _ _ => trivial) fun _ _ => hUse
      | some context =>
          have hDeed : m.deed = .annotates text := by
            simp [deed, deedOf, hFocus, hUse, hContext]
          rw [hDeed]
          have hAnnotated : Deed.Turns (.annotates text) context.entries
              ({ context with frames := (context.frames.annotate text).2 } :
                Context).entries := .annotates
          exact did_answered (acts_answered hContext rfl hAnnotated) hMove rfl rfl rfl
            fun _ => trivial

private theorem did_rethrow {name : String} (hFocus : m.focus = .exec (.rethrow name)) :
    m.Did (m.exec (.rethrow name)) m.deed := by
  have hDeed : m.deed = .recalls name := by simp only [deed, deedOf, hFocus]
  have hMove : m.move = .stay := by simp only [move, hFocus]
  rw [hDeed]
  have recalls {after : Machine ν} (hContext : after.context = m.context)
    (hBindings : after.bindings = m.bindings)
    (hUse : after.inUse = m.inUse) (hHand : after.focus.carried? = m.exception? name)
    (hPoised : ∀ ledger, Poised after.focus ledger) : m.Did after (.recalls name) :=
    { acts := by
        have hEntries : after.entries? = m.entries? := by rw [entries?, hContext]; rfl
        rw [hEntries]
        exact .of_quiet trivial
      move := hMove
      hand := hHand
      bindings := hBindings
      poised := fun _ _ _ _ => hPoised _
      idle := fun h => hUse.trans (h trivial).1 }
  simp only [exec]
  cases hFound : m.exception? name with
  | none => exact recalls rfl rfl rfl hFound.symm fun _ => trivial
  | some exception => exact recalls rfl rfl rfl hFound.symm fun _ => trivial

/-- What a statement does. Most change neither the stacks nor the variables and are done
at once; the others are operations on the context, and theirs is the lemma above. -/
private theorem did_exec {stmt : Stmt ν} (hClear : m.poisoned = false)
    (hFocus : m.focus = .exec stmt) (hGoesOn : (m.exec stmt).poisoned = false) :
    m.Did (m.exec stmt) m.deed := by
  have same {after : Machine ν} (hDeed : m.deed = .rests) (hMove : m.move = .stay)
      (hAfter : after.context = m.context ∧ after.bindings = m.bindings ∧
        after.inUse = m.inUse ∧
        ((∃ value, after.focus = .complete value) ∨ after.focus = .next ∨ ∃ payload,
        after.focus = .unwind payload)) :
      m.Did after m.deed := by
    obtain ⟨hContext, hBindings, hUse, hCode⟩ := hAfter
    have hPoised : after.focus.carried? = none ∧ ∀ ledger,
        Poised after.focus ledger := by
      obtain ⟨value, h⟩ | h | ⟨payload, h⟩ :=
        hCode <;> rw [h] <;> exact ⟨rfl, fun _ => trivial⟩
    exact did_rests hDeed hMove hContext hPoised.1 hBindings
      (fun ledger _ _ _ => hPoised.2 ledger) fun h _ => hUse.trans h
  cases stmt with
  | raise kind site message => exact did_raise hFocus hGoesOn
  | protect levels site mode clauses body => exact did_protect hFocus hGoesOn
  | guard scope flavor body => exact did_registerGuard hFocus hGoesOn
  | release name how => exact did_release hClear hFocus hGoesOn
  | rethrow name => exact did_rethrow hFocus
  | annotate text => exact did_annotate hFocus
  | acquire name opening times =>
      cases times with
      | zero =>
          exact same (by cases opening <;> simp only [deed, deedOf, hFocus])
            (by cases opening <;> simp only [move, hFocus])
              ⟨rfl, rfl, rfl, .inl ⟨_, rfl⟩⟩
      | succ times => exact did_acquire hFocus hGoesOn
  | panic text =>
      exact same (by simp only [deed, deedOf, hFocus]) (by simp only [move, hFocus])
        ⟨rfl, rfl, rfl, .inr (.inr ⟨_, rfl⟩)⟩
  | block body =>
      exact same (by simp only [deed, deedOf, hFocus]) (by simp only [move, hFocus])
        ⟨rfl, rfl, rfl, .inr (.inl rfl)⟩
  | loop times body =>
      cases times with
      | zero =>
          exact same (by simp only [deed, deedOf, hFocus]) (by simp only [move, hFocus])
            ⟨rfl, rfl, rfl, .inl ⟨_, rfl⟩⟩
      | succ times =>
          exact same (by simp only [deed, deedOf, hFocus]) (by simp only [move, hFocus])
            ⟨rfl, rfl, rfl, .inr (.inl rfl)⟩
  | attempt body resume =>
      exact same (by simp only [deed, deedOf, hFocus]) (by simp only [move, hFocus])
        ⟨rfl, rfl, rfl, .inr (.inl rfl)⟩
  | inspect name =>
      simp only [exec]
      split <;>
        exact same (by simp only [deed, deedOf, hFocus]) (by simp only [move, hFocus])
        ⟨rfl, rfl, rfl, .inl ⟨_, rfl⟩⟩
  | configure config =>
      simp only [exec]
      split <;>
        exact same (by simp only [deed, deedOf, hFocus]) (by simp only [move, hFocus])
        ⟨rfl, rfl, rfl, .inl ⟨_, rfl⟩⟩
  | declare entry =>
      simp only [exec]
      split
      · exact same (by simp only [deed, deedOf, hFocus]) (by simp only [move, hFocus])
          ⟨rfl, rfl, rfl, .inl ⟨_, rfl⟩⟩
      · next kind registry notices _ =>
          refine same (by simp only [deed, deedOf, hFocus])
            (by simp only [move, hFocus]) ⟨?_, ?_, ?_, .inl ⟨_, rfl⟩⟩
          · exact (foldl_note_same notices _).2.1
          · exact (foldl_note_bindings notices _).1
          · exact (foldl_note_bindings notices _).2
  | _ =>
      exact same (by simp only [deed, deedOf, hFocus]) (by simp only [move, hFocus])
        ⟨rfl, rfl, rfl, .inl ⟨_, rfl⟩⟩

/-! ## Code that waits -/

private theorem did_proceed (hFocus : m.focus = .next) : m.Did m.proceed m.deed := by
  have hDeed : m.deed = .rests := by simp only [deed, hFocus]
  have hMove : m.move = .stay := by simp only [move, hFocus]
  unfold proceed
  split <;> exact did_rests hDeed hMove rfl rfl rfl (fun _ _ _ _ => trivial)
    fun h _ => h

private theorem did_complete {value : Option (Option ν)}
    (hFocus : m.focus = .complete value) : m.Did (m.complete value) m.deed := by
  have hDeed : m.deed = .rests := by simp only [deed, hFocus]
  have hMove : m.move = .stay := by simp only [move, hFocus]
  unfold complete
  split <;> exact did_rests hDeed hMove rfl rfl rfl (fun _ _ _ _ => trivial)
    fun h _ => h

/-- The body of a protected region has returned. -/
theorem did_claimEscape {region : Protected ν} {value : Option ν}
    {below : List (Resumption ν)} (hFocus : m.focus = .deliver value)
    (hControl : m.control = .body region :: below)
    (hGoesOn : (m.deliver value).poisoned = false) :
    m.Did (m.deliver value) m.deed := by
  unfold deliver at hGoesOn ⊢
  simp only [hControl] at hGoesOn ⊢
  refine did_perform rfl hGoesOn fun context answer left hContext hOk hFree _ => ?_
  have hBody (ledger : List Extent) (hTurn : m.InTurn ledger) :
      ∃ rest, ledger = .protecting region.visit .body :: rest :=
    List.head?_eq_some_iff.1
      (hTurn.closing _ (by simp only [closing?, hFocus, hControl]))
  obtain ⟨rfl, hLeft⟩ | ⟨kind, message, origin, innermost, outer, rfl, hRegions, -,
      hLeft⟩ := effect_claimEscape.of_ok hOk
  · have hDeed : m.deed = .rests := by
      simp only [deed, hFocus, hControl, answering_ok hContext hOk]
    rw [hDeed]
    exact {
      acts := acts_answered hContext rfl (hLeft ▸ .quiet trivial)
      move := by simp only [move, hFocus, hControl, after_ok hContext hOk, Deed.move]
      hand := rfl
      bindings := rfl
      poised := fun ledger hTurn _ _ => by
        obtain ⟨rest, rfl⟩ := hBody ledger hTurn
        exact ⟨_, rest, rfl⟩
      idle := fun _ => hFree }
  · have hDeed : m.deed = .reports region.visit
        ((⟨kind, message, origin, .live context.entries.frames.length⟩ : Record).against
          context.entries.frames) := by
      simp only [deed, hFocus, hControl, answering_ok hContext hOk]
    rw [hDeed]
    exact {
      acts := acts_answered hContext rfl (hLeft ▸ .reports hRegions)
      move := by simp only [move, hFocus, hControl, after_ok hContext hOk, Deed.move]
      hand := rfl
      bindings := rfl
      poised := fun ledger hTurn _ _ => by
        obtain ⟨rest, rfl⟩ := hBody ledger hTurn
        exact ⟨rest, rfl⟩
      idle := fun _ => hFree }

/-- A guard body has returned. -/
theorem did_unshield {scope : Leaving ν} {value : Option ν}
    {below : List (Resumption ν)} (hFocus : m.focus = .deliver value)
    (hControl : m.control = .guarding scope :: below)
    (hGoesOn : (m.deliver value).poisoned = false) :
    m.Did (m.deliver value) m.deed := by
  unfold deliver at hGoesOn ⊢
  simp only [hControl] at hGoesOn ⊢
  refine did_perform rfl hGoesOn fun context _ left hContext hOk hFree _ => ?_
  have hDeed : m.deed = .unshields scope.mark := by simp only [deed, hFocus, hControl]
  obtain ⟨parked, rest, hDispatch, hLeft⟩ := effect_popShield.of_ok hOk
  rw [hDeed]
  exact {
    acts := acts_answered hContext rfl (hLeft ▸ .unshields hDispatch)
    move := by simp only [move, hFocus, hControl, Deed.move]
    hand := rfl
    bindings := rfl
    poised := fun ledger hTurn _ hSeated => by
      obtain ⟨rest, rfl⟩ := List.head?_eq_some_iff.1
        (hTurn.closing (.guardBody scope.mark)
          (by simp only [closing?, hFocus, hControl]))
      exact hSeated _ _ rfl
    idle := fun _ => hFree }

private theorem did_deliver {value : Option ν} (hClear : m.poisoned = false)
    (hFocus : m.focus = .deliver value) (hGoesOn : (m.deliver value).poisoned = false) :
    m.Did (m.deliver value) m.deed := by
  cases hControl : m.control with
  | nil =>
      unfold deliver
      simp only [hControl]
      exact did_rests (by simp only [deed, hFocus, hControl])
        (by simp only [move, hFocus, hControl]) rfl rfl rfl
        (fun _ _ _ _ => trivial) fun h _ => h
  | cons waiting below =>
      cases waiting with
      | body region => exact did_claimEscape hFocus hControl hGoesOn
      | guarding scope => exact did_unshield hFocus hControl hGoesOn
      | handler region =>
          unfold deliver
          simp only [hControl]
          refine did_rests (by simp only [deed, hFocus, hControl])
            (by simp only [move, hFocus, hControl]) rfl rfl rfl
            (fun ledger hTurn _ _ => ?_) fun h _ => h
          obtain ⟨caught, hHead⟩ :=
            hTurn.handler region.visit (by simp only [endsHandler?, hFocus, hControl])
          obtain ⟨rest, rfl⟩ := List.head?_eq_some_iff.1 hHead
          exact ⟨_, rest, rfl⟩
      | thread auto =>
          unfold deliver
          simp only [hControl]
          cases auto with
          | false =>
              exact did_rests (by simp only [deed, hFocus, hControl])
                (by simp only [move, hFocus, hControl]) rfl rfl rfl
                (fun _ _ _ _ => trivial) fun h _ => h
          | true =>
              obtain ⟨-, -, -, hContext⟩ :=
                closeThread_clear (m := { m with control := below }) hClear
              obtain ⟨hBindings, hUse⟩ :=
                closeThread_same ({ m with control := below } : Machine ν)
              exact did_closing (by simp only [deed, hFocus, hControl])
                (by simp only [move, hFocus, hControl])
                hContext rfl hBindings hUse fun _ => trivial
      | loop times body =>
          unfold deliver
          simp only [hControl]
          cases times <;>
            exact did_rests (by simp only [deed, hFocus, hControl])
            (by simp only [move, hFocus, hControl])
            rfl rfl rfl (fun _ _ _ _ => trivial) fun h _ => h
      | _ =>
          unfold deliver
          simp only [hControl]
          exact did_rests (by simp only [deed, hFocus, hControl])
            (by simp only [move, hFocus, hControl]) rfl rfl rfl
            (fun _ _ _ _ => trivial) fun h _ => h

/-- A raise has arrived at a protected region whose body runs. -/
theorem did_catch {region : Protected ν} {below : List (Resumption ν)}
    (hFocus : m.focus = .unwind .raise) (hControl : m.control = .body region :: below)
    (hGoesOn : (m.propagate .raise).poisoned = false) :
    m.Did (m.propagate .raise) m.deed := by
  unfold propagate at hGoesOn ⊢
  simp only [hControl] at hGoesOn ⊢
  refine did_perform rfl hGoesOn fun context exception left hContext hOk hFree _ => ?_
  have hDeed : m.deed = .catches region.visit exception := by
    simp only [deed, hFocus, hControl, answering_ok (m := m) hContext hOk]
  obtain ⟨innermost, outer, index, record, hRegions, -, hFlight, hRecord, rfl, hLeft⟩ :=
    effect_catchInFlight.of_ok hOk
  rw [hDeed]
  exact {
    acts := acts_answered hContext rfl (hLeft ▸ .catches hRegions hFlight hRecord)
    move := by
      simp only [move, hFocus, hControl, after_ok (m := m) hContext hOk, Deed.move]
    hand := rfl
    bindings := rfl
    poised := fun ledger hTurn _ _ => by
      obtain ⟨rest, rfl⟩ := List.head?_eq_some_iff.1
        (hTurn.closing (.protecting region.visit .body)
          (by simp only [closing?, hFocus, hControl]))
      exact ⟨rest, rfl⟩
    idle := fun _ => hFree }

/-- Foreign code stops an unwinding, and may let it go on later. -/
theorem did_attempt {payload : Payload} {resume : Option (List (Stmt ν))}
    {below : List (Resumption ν)} (hFocus : m.focus = .unwind payload)
    (hControl : m.control = .attempt resume :: below) :
    m.Did (m.propagate payload) m.deed := by
  have hMove : m.move = .stay := by simp only [move, hFocus, hControl]
  have stopped {after : Machine ν}
      (hAfter : after.context = m.context ∧ after.bindings = m.bindings ∧
      after.inUse = m.inUse ∧ (after.focus = .complete none ∨ after.focus = .next)) :
      m.Did after m.deed := by
    obtain ⟨hContext, hBindings, hUse, hCode⟩ := hAfter
    have hPlain : after.focus.carried? = none ∧ ∀ ledger,
        Poised after.focus ledger := by
      obtain h | h := hCode <;> rw [h] <;> exact ⟨rfl, fun _ => trivial⟩
    cases payload with
    | raise =>
        have hEntries : after.entries? = m.entries? := by rw [entries?, hContext]; rfl
        rw [show m.deed = .stops by simp only [deed, hFocus, hControl]]
        exact {
          acts := by
            rw [hEntries]
            exact .of_quiet trivial
          move := hMove
          hand := hPlain.1
          bindings := hBindings
          poised := fun _ _ _ _ => hPlain.2 _
          idle := fun h => hUse.trans (h trivial).1 }
    | _ =>
        exact did_rests (by simp only [deed, hFocus, hControl]) hMove hContext hPlain.1
          hBindings (fun ledger _ _ _ => hPlain.2 ledger) fun h _ => hUse.trans h
  unfold propagate
  simp only [hControl]
  cases resume with
  | none => exact stopped ⟨rfl, rfl, rfl, .inl rfl⟩
  | some between => exact stopped ⟨rfl, rfl, rfl, .inr rfl⟩

private theorem did_propagate {payload : Payload} (hClear : m.poisoned = false)
    (hFocus : m.focus = .unwind payload)
    (hGoesOn : (m.propagate payload).poisoned = false) :
    m.Did (m.propagate payload) m.deed := by
  cases hControl : m.control with
  | nil =>
      unfold propagate
      simp only [hControl]
      exact did_rests (by simp only [deed, hFocus, hControl])
        (by simp only [move, hFocus, hControl]) rfl rfl rfl
        (fun _ _ _ _ => trivial) fun h _ => h
  | cons waiting below =>
      cases waiting with
      | block word rest handles value =>
          unfold propagate
          simp only [hControl]
          cases handles <;> exact did_rests (by simp only [deed, hFocus, hControl])
            (by simp only [move, hFocus, hControl]) rfl rfl rfl (fun _ _ _ _ => trivial)
              fun h _ => h
      | body region =>
          cases payload with
          | raise => exact did_catch hFocus hControl hGoesOn
          | _ =>
              unfold propagate at hGoesOn ⊢
              simp only [hControl] at hGoesOn ⊢
              exact did_passThrough (by simp only [deed, hFocus, hControl])
                (by simp only [move, hFocus, hControl]) hClear
                rfl rfl hGoesOn
      | handler region =>
          unfold propagate at hGoesOn ⊢
          simp only [hControl] at hGoesOn ⊢
          exact did_passThrough (by simp only [deed, hFocus, hControl])
            (by simp only [move, hFocus, hControl]) hClear
            rfl rfl hGoesOn
      | guarding scope =>
          unfold propagate at hGoesOn
          simp only [hControl] at hGoesOn
          cases hGoesOn.symm.trans (poisoned_terminate _ _)
      | attempt resume => exact did_attempt hFocus hControl
      | thread auto =>
          unfold propagate
          simp only [hControl]
          cases auto with
          | false =>
              exact did_rests (by simp only [deed, hFocus, hControl])
                (by simp only [move, hFocus, hControl]) rfl rfl rfl
                (fun _ _ _ _ => trivial) fun h _ => h
          | true =>
              obtain ⟨-, -, -, hContext⟩ :=
                dropThread_clear (m := { m with control := below }) hClear
              obtain ⟨hBindings, hUse⟩ :=
                dropThread_same ({ m with control := below } : Machine ν)
              exact did_closing (by simp only [deed, hFocus, hControl])
                (by simp only [move, hFocus, hControl])
                hContext rfl hBindings hUse fun _ => trivial
      | message raising rest =>
          unfold propagate
          simp only [hControl]
          exact did_rests (by simp only [deed, hFocus, hControl])
            (by simp only [move, hFocus, hControl]) rfl rfl rfl
            (fun _ _ _ _ => trivial) fun _ _ => rfl
      | _ =>
          unfold propagate
          simp only [hControl]
          exact did_rests (by simp only [deed, hFocus, hControl])
            (by simp only [move, hFocus, hControl]) rfl rfl rfl
            (fun _ _ _ _ => trivial) fun h _ => h

/-- A step that does not terminate the thread has done its deed. -/
theorem did_step (hClear : m.poisoned = false) (hGoesOn : m.step.poisoned = false) :
    m.Did m.step m.deed := by
  unfold step at hGoesOn ⊢
  cases hFocus : m.focus with
  | next => exact did_proceed hFocus
  | exec stmt =>
      rw [hFocus] at hGoesOn
      exact did_exec hClear hFocus hGoesOn
  | complete value => exact did_complete hFocus
  | deliver value =>
      rw [hFocus] at hGoesOn
      exact did_deliver hClear hFocus hGoesOn
  | unwind payload =>
      rw [hFocus] at hGoesOn
      exact did_propagate hClear hFocus hGoesOn
  | offer region exception =>
      rw [hFocus] at hGoesOn
      exact did_offer hFocus hGoesOn
  | leave region outcome =>
      rw [hFocus] at hGoesOn
      exact did_leave hFocus hGoesOn
  | forward exception =>
      rw [hFocus] at hGoesOn
      exact did_forward hFocus hGoesOn
  | drop handle =>
      rw [hFocus] at hGoesOn
      exact did_drop hClear hFocus hGoesOn
  | leaveScope scope =>
      rw [hFocus] at hGoesOn
      exact did_leaveScope hFocus hGoesOn
  | write raising pieces =>
      rw [hFocus] at hGoesOn
      exact did_write hFocus hGoesOn
  | stopped how =>
      exact did_rests (by simp only [deed, hFocus]) (by simp only [move, hFocus])
        rfl (by simp only [hFocus]; rfl) rfl
        (fun ledger _ hPoised _ => hPoised) fun h _ => h

/-! ## The first state -/

/-- Nothing has been done when a thread starts: it has no variables and nothing in hand,
and its stacks are empty. -/
theorem start_fresh (process : Process) (auto : Bool) (limits : Option Limits)
    (body : List (Stmt ν)) :
    (start process auto limits body).bindings = [] ∧
    (start process auto limits body).focus.carried? = none ∧
      ∀ context, (start process auto limits body).context = some context →
        context.entries = .empty := by
  let fresh : Machine ν :=
    { toProcess := process
      control := [.block "" body [] none, .thread auto]
      focus := .next }
  have hFocus := focus_openThread fresh limits
  have hBindings := (openThread_same fresh limits).1
  have hCases := context_openThread fresh limits
  unfold start
  cases auto with
  | false => exact ⟨rfl, rfl, fun context hContext => nomatch hContext⟩
  | true =>
      simp only [if_true]
      generalize hOpen : openThread _ _ = opened
      change fresh.openThread limits = opened at hOpen
      cases opened with
      | mk outcome m =>
          rw [hOpen] at hFocus hBindings hCases
          simp only at hFocus hBindings hCases
          have hContext (context : Context) (hSome : m.context = some context) :
              context.entries = .empty := by
            obtain ⟨-, hNone, -⟩ | ⟨-, -, -, config, limits', hNew⟩ := hCases
            · cases hSome.symm.trans hNone
            · cases hSome.symm.trans hNew
              rfl
          have hIdle : m.focus.carried? = none := by
            rw [hFocus]
            rfl
          cases outcome with
          | overflowed => exact ⟨hBindings, rfl, hContext⟩
          | opened => exact ⟨hBindings, hIdle, hContext⟩
          | refused error => exact ⟨hBindings, hIdle, hContext⟩

end Machine

end Unwinding
