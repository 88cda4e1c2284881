import Unwinding.Proofs.Abandonment
import Unwinding.Proofs.Marks
import Unwinding.Proofs.Stages

/-!
# What is still to be reported

An explicit region that goes without having been left is an escape, which waits in the
context until the region that has to report it does so or drops it. Three operations
deal with escapes: abandoning a region adds one, a body that returns may claim the
newest one, and a region that is left drops the newest one if that is its own. All
others leave them alone, as they leave alone which kind reports an escape and how long
its message may be.

## Main results

* `dues_leave`, `dues_abandon`, `dues_claimEscape` — what the three operations do.
* `Operation.leaves_account` — every other operation leaves the escapes alone, also if
  it fails.
* `Machine.settles_step` — what a step does to the escapes, by its deed.
-/

namespace Unwinding

open Context

/-! ## Parts of a context -/

/-- The region that a dropped escape is about, and the region that dropped it. -/
def Notice.dropped? : Notice → Option (Site × Site)
  | .escapeDropped escape region => some (escape, region)
  | _ => none

/-- The same, where an event tells of a dropped escape. -/
def Event.dropped? {ν : Type} : Event ν → Option (Site × Site)
  | .notice news => news.dropped?
  | _ => none

/-- The part of a context that is about escapes.

Escapes are not on a stack that is truncated, so they have to be followed by
themselves. -/
structure Dues where
  /-- The escapes that wait, newest first. -/
  escapes : List Escape
  escapeKind : Option String
  messageLimit : Nat

/-- The escapes that a context has still to report, with their owners. -/
def Context.dues (context : Context) : Dues :=
  ⟨context.escapes, context.escapeKind, context.messageLimit⟩

/-- What the step in progress has told of dropped escapes, newest first. -/
def Context.dropped (context : Context) : List (Site × Site) :=
  context.journal.filterMap Notice.dropped?

/-- What a context owes, and what the step in progress has told of dropped escapes: all
that an operation on escapes can change. -/
def Context.account (context : Context) : Dues × List (Site × Site) :=
  (context.dues, context.dropped)

/-- What a region drops when it is left. -/
def dropping (visit : Visit) (escapes : List Escape) : List (Site × Site) :=
  match escapes with
  | [] => []
  | escape :: _ => if escape.owner = visit.id then [(escape.site, visit.site)] else []

/-- The exception that reports an escape, as records keep it. -/
def Dues.record (dues : Dues) (slots : Slots) (escape : Escape) (frames : List Frame) :
    Record where
  kind := (dues.escapeKind.bind slots.get?).getD .illegalEscape
  message := (Bounded.write { limit := dues.messageLimit } (escapeText escape)).1.text
  origin := escape.site
  trace := .live frames.length

section

variable {context : Context}

private theorem leaves_account_note {notice : Notice} (h : notice.dropped? = none) :
    Context.Leaves account (note notice) :=
  leaves_modify fun _ => congrArg (Prod.mk _) (List.filterMap_cons_none h)

private theorem leaves_account_setState (visit : Visit) (state : RegionState) :
    Context.Leaves account (setState visit state) := by
  refine leaves_get fun context => ?_
  cases context.regions.top? with
  | none => exact leaves_fail _
  | some region =>
      dsimp only
      split
      · exact leaves_bind (leaves_account_note rfl) fun _ => leaves_modify fun _ => rfl
      · exact leaves_fail _

private theorem leaves_account_enter (site : Site) (explicit : Bool) :
    Context.Leaves account (enter site explicit) := by
  refine leaves_get fun _ => leaves_bind (fun _ => rfl)
    fun id => leaves_bind (leaves_onRegions (fun _ _ => rfl) _) fun _ => ?_
  cases explicit with
  | true =>
      exact leaves_bind (leaves_onFrames (fun _ _ => rfl) _)
        fun _ => leaves_bind (leaves_account_note rfl) fun _ => leaves_pure _
  | false =>
      refine leaves_bind (leaves_onDispatch (fun _ _ => rfl) _)
        fun _ => leaves_bind (leaves_onFrames (fun _ _ => rfl) _) fun _ => ?_
      exact leaves_bind (leaves_account_note rfl)
        fun _ => leaves_bind (leaves_account_setState _ _) fun _ => leaves_pure _

private theorem leaves_account_catchInFlight (visit : Visit) :
    Context.Leaves account (catchInFlight visit) := by
  refine leaves_bind (leaves_account_setState visit _) fun _ => leaves_get
    fun context => ?_
  cases context.inFlight with
  | none => exact leaves_fail _
  | some index =>
      refine leaves_bind (leaves_modify fun _ => rfl) fun _ => leaves_get
        fun context => ?_
      cases context.records.get? index with
      | none => exact leaves_fail _
      | some record => exact leaves_get fun _ => leaves_pure _

private theorem leaves_account_popDispatch (owner : Nat) (purpose : Purpose) :
    Context.Leaves account (popDispatch owner purpose) := by
  refine leaves_get fun context => ?_
  cases context.dispatch.top? with
  | none => exact leaves_throw _
  | some mark =>
      dsimp only
      generalize (if mark.isGuard = true then Purpose.guard else Purpose.region) = found
      split
      · refine leaves_bind (leaves_onDispatch (fun _ _ => rfl) _) fun _ => ?_
        cases mark with
        | region owner => exact leaves_pure _
        | guard owner parked => exact leaves_modify fun _ => rfl
      · exact leaves_fail _

private theorem leaves_account_beginHandling (visit : Visit) :
    Context.Leaves account (beginHandling visit) :=
  leaves_bind (leaves_account_popDispatch _ _) fun _ => leaves_account_setState _ _

private theorem leaves_account_dropDispatch (visit : Visit) :
    Context.Leaves account (dropDispatch visit) := by
  refine leaves_get fun context => ?_
  split
  · split
    · exact leaves_onDispatch (fun _ _ => rfl) _
    · exact leaves_pure _
  · exact leaves_pure _

private theorem leaves_account_releaseRecords (depth : Nat) (keep : Bool) :
    Context.Leaves account (releaseRecords depth keep) := by
  refine leaves_get fun context => ?_
  split
  · split
    · exact leaves_onRecords (fun _ _ => rfl) _
    · split
      · exact leaves_bind (leaves_onRecords (fun _ _ => rfl) _) fun _ => leaves_modify
          fun _ => rfl
      · exact leaves_bind (leaves_modify fun _ => rfl) fun _ => leaves_onRecords
          (fun _ _ => rfl) _
  · exact leaves_onRecords (fun _ _ => rfl) _

private theorem leaves_account_reconcileFrames (depth : Nat) :
    Context.Leaves account (reconcileFrames depth) := by
  intro context
  change account
    (leftBehind
    (EStateM.bind (Context.ofExcept (context.frames.reconcile depth)) _ context)) = _
  unfold EStateM.bind
  cases context.frames.reconcile depth with
  | error error => rfl
  | ok result =>
      obtain ⟨outcome, cut⟩ := result
      cases outcome <;> rfl

private theorem leaves_account_raise (table : KindTable) (kind : Kind) (site : Site)
    (written : String) :
    Context.Leaves account (raise table kind site written) := by
  refine leaves_get fun _ => leaves_bind (leaves_onRecords (fun _ _ => rfl) _)
    fun _ => leaves_get fun raised => ?_
  split
  · exact leaves_bind (leaves_modify fun _ => rfl) fun _ => leaves_pure _
  · cases raised.current? with
    | none => exact leaves_throw _
    | some exception => exact leaves_pure _

private theorem leaves_account_forward (exception : Exception) :
    Context.Leaves account (forward exception) := by
  refine leaves_get fun context => ?_
  split
  · exact leaves_bind (leaves_onRecords (fun _ _ => rfl) _)
      fun _ => leaves_bind (leaves_modify fun _ => rfl) fun _ => leaves_pure _
  · exact leaves_pure _

private theorem leaves_account_measure (table : KindTable) (kind : Kind) :
    Context.Leaves account (do
    let _ ← Context.ofExcept (table.entry kind)
    return (← get).messageLimit : Step Nat) := by
  cases table.entry kind with
  | error error => exact leaves_throw _
  | ok entry => exact leaves_get fun context => leaves_pure context.messageLimit

private theorem leaves_account_openScope (site : Site) :
    Context.Leaves account (openScope site) :=
  leaves_bind (fun _ => rfl) fun _ => leaves_bind (leaves_onGuards (fun _ _ => rfl) _)
    fun _ => leaves_pure _

private theorem leaves_account_closeScope (mark : Nat) :
    Context.Leaves account (closeScope mark) := by
  refine leaves_get fun context => ?_
  cases context.guards.top? with
  | none => exact leaves_throw _
  | some innermost =>
      dsimp only
      split
      · exact leaves_onGuards (fun _ _ => rfl) _
      · exact leaves_fail _

private theorem leaves_account_shield (owner : Nat) :
    Context.Leaves account (shield owner) :=
  leaves_get fun _ => leaves_bind (leaves_onDispatch (fun _ _ => rfl) _)
    fun _ => leaves_modify fun _ => rfl

private theorem leaves_account_enterCall (site : Site) :
    Context.Leaves account (enterCall site) :=
  leaves_get fun _ => leaves_bind (leaves_onFrames (fun _ _ => rfl) _)
    fun _ => leaves_pure _

private theorem leaves_account_leaveCall (entry : Depths) (unwinding : Bool) :
    Context.Leaves account (leaveCall entry unwinding) := by
  refine leaves_bind (leaves_modify fun _ => rfl)
    fun _ => leaves_bind (leaves_account_reconcileFrames _) fun _ => ?_
  refine leaves_bind (leaves_onFrames (fun _ _ => rfl) _) fun _ => ?_
  cases unwinding with
  | true => exact leaves_pure _
  | false =>
      refine leaves_get fun context => ?_
      dsimp only [Bool.false_eq_true, if_false]
      split
      · exact leaves_pure _
      · exact leaves_fail _

end

/-! ## Operations on escapes -/

section

variable {α β : Type} {context : Context}

private theorem Context.Leaves.yields {γ : Type} {view : Context → γ} {step : Step α}
    (h : Context.Leaves view step) :
    Yields (step context) fun _ after => view after = view context := by
  have hLeft := h context
  unfold Yields
  cases hOutcome : step context with
  | ok answer after =>
      rw [hOutcome] at hLeft
      exact hLeft
  | error error after => trivial

private theorem account_takeEscape {owner : Nat} :
    Yields (takeEscape owner context) fun escape after =>
      after.account = ({ context.dues with escapes := withdraw owner context.escapes },
        context.dropped) ∧
        ((escape = none ∧ context.escapes.head?.map Escape.owner ≠ some owner ∧
          withdraw owner context.escapes = context.escapes) ∨ ∃ newest,
          escape = some newest ∧ newest.owner = owner ∧ context.escapes =
          newest :: withdraw owner context.escapes) := by
  rw [takeEscape_eq]
  cases hEscapes : context.escapes with
  | nil => exact ⟨by rw [account, dues, hEscapes]; rfl, .inl ⟨rfl, by simp, rfl⟩⟩
  | cons newest older =>
      dsimp only
      by_cases hOwn : newest.owner = owner
      · rw [if_pos hOwn, withdraw, if_pos hOwn]
        exact ⟨rfl, .inr ⟨newest, rfl, hOwn, rfl⟩⟩
      · rw [if_neg hOwn, withdraw, if_neg hOwn]
        exact ⟨by rw [account, dues, hEscapes], .inl ⟨rfl, by simpa using hOwn, rfl⟩⟩

private theorem leaves_account_balance (visit : Visit) (unwinding : Bool) :
    Context.Leaves account (do
    let context ← get
    let carried := unwinding && context.inFlight == some visit.entry.exceptions
    let now := context.depths
    let exit := if carried then { now with exceptions := now.exceptions - 1 } else now
    unless (exit.mismatches visit.entry).isEmpty do
      fail (.regionUnbalanced visit.site visit.entry exit) : Step Unit) := by
  refine leaves_get fun context => ?_
  dsimp only
  generalize (if (unwinding && context.inFlight == some visit.entry.exceptions) =
    true then { context.depths with exceptions := context.depths.exceptions - 1 } else
    context.depths) = exit
  split
  · exact leaves_pure _
  · exact leaves_fail _

/-- Once the escape of a region is out of the way, nothing more is done about
escapes. -/
theorem leaves_account_leaveEmptied (visit : Visit) (unwinding : Bool) :
    Context.Leaves account (do
    dropDispatch visit
    let entry := visit.entry
    releaseRecords entry.exceptions unwinding
    detachAbove entry.frames
    let top := (← get).regions.top?
    onRegions fun regions => regions.pop.map Prod.snd
    onFrames Frames.leave
    if let some region := top then
      note (.regionMoved region.visit.id region.visit.site region.state .outside)
    let context ← get
    let carried := unwinding && context.inFlight == some entry.exceptions
    let now := context.depths
    let exit := if carried then { now with exceptions := now.exceptions - 1 } else now
    unless (exit.mismatches entry).isEmpty do
      fail (.regionUnbalanced visit.site entry exit) : Step Unit) := by
  refine leaves_bind (leaves_account_dropDispatch visit)
    fun _ => leaves_bind (leaves_account_releaseRecords _ _) fun _ => ?_
  refine leaves_bind (leaves_modify fun _ => rfl) fun _ => leaves_get fun settled => ?_
  refine leaves_bind (leaves_onRegions (fun _ _ => rfl) _)
    fun _ => leaves_bind (leaves_onFrames (fun _ _ => rfl) _) fun _ => ?_
  cases settled.regions.top? with
  | none => exact leaves_account_balance visit unwinding
  | some region =>
      exact leaves_bind (leaves_account_note rfl)
        fun _ => leaves_account_balance visit unwinding

/-- A region that is left drops the newest escape if that is its own, and tells so. -/
theorem account_leave {visit : Visit} {unwinding : Bool} :
    Yields (leave visit unwinding context) fun _ after =>
      after.account =
        ({ context.dues with escapes := withdraw visit.id context.escapes },
        dropping visit context.escapes ++ context.dropped) := by
  unfold leave
  refine ends_bind ((leaves_account_setState _ _).yields.imp fun _ moved hMoved => ?_)
  refine ends_bind (account_takeEscape.imp fun escape taken hTaken => ?_)
  obtain ⟨hDues, hDropped⟩ := Prod.mk.inj hMoved
  have hEscapes : moved.escapes = context.escapes := congrArg Dues.escapes hDues
  rw [hEscapes, hDues, hDropped] at hTaken
  obtain ⟨hTaken, ⟨rfl, hOther, -⟩ | ⟨newest, rfl, hOwn, hNewest⟩⟩ := hTaken
  · refine (leaves_account_leaveEmptied visit unwinding).yields.imp
      fun _ after hAfter => ?_
    have hNone : dropping visit context.escapes = [] := by
      unfold dropping
      split
      · rfl
      · next escape older hNewest =>
          rw [hNewest] at hOther
          exact if_neg (by simpa using hOther)
    rw [hNone]
    exact hAfter.trans hTaken
  · refine ends_bind (ends_note ?_)
    refine Ends.imp (leaves_account_leaveEmptied visit unwinding).yields
      fun _ after hAfter => hAfter.trans ?_
    have hSome : dropping visit context.escapes = [(newest.site, visit.site)] := by
      rw [hNewest, dropping, if_pos hOwn]
    obtain ⟨hLeft, hTold⟩ := Prod.mk.inj hTaken
    rw [hSome]
    exact congr (congrArg Prod.mk hLeft)
      (congrArg (List.cons (newest.site, visit.site)) hTold)

/-- A region that is abandoned is reported by the innermost protected region whose body
runs, of those that are left. -/
theorem dues_abandon {visit : Visit} :
    Yields (abandon visit context) fun _ after =>
      ∃ owner, reporterOf after.regions.live = some owner ∧
        after.dues =
          { context.dues with escapes := report owner visit.site context.escapes } := by
  have hCut : Context.Leaves account (cutBack visit) :=
    leaves_get fun _ => leaves_bind (leaves_account_note rfl)
      fun _ => leaves_bind (leaves_account_releaseRecords _ _) fun _ =>
      leaves_bind (leaves_modify fun _ => rfl)
        fun _ => leaves_bind (leaves_onRegions (fun _ _ => rfl) _) fun _ =>
      leaves_bind (leaves_onDispatch (fun _ _ => rfl) _)
        fun _ => leaves_bind (leaves_onGuards (fun _ _ => rfl) _) fun _ =>
      leaves_account_reconcileFrames _
  rw [abandon_eq]
  refine ends_bind (hCut.yields.imp fun _ cut hSame => ?_)
  obtain ⟨hSame, -⟩ := Prod.mk.inj hSame
  have hEscapes : cut.escapes = context.escapes := congrArg Dues.escapes hSame
  rw [← hEscapes, ← hSame]
  refine ends_bind (ends_get ?_)
  cases hReporter : reporter? cut with
  | none => exact ends_fail trivial
  | some owner =>
      refine ends_bind (ends_get ?_)
      split
      · next hRepeated =>
          exact ends_note ⟨owner, hReporter, by rw [report, if_pos hRepeated]; rfl⟩
      · next hFirst =>
          exact ends_modify ⟨owner, hReporter, by rw [report, if_neg hFirst]; rfl⟩

/-- The body of a region has returned. It claims the newest escape if that is its own,
and reports it. -/
theorem dues_claimEscape {slots : Slots} {visit : Visit} :
    Yields (claimEscape slots visit context) fun answer after =>
      after.dues = { context.dues with escapes := withdraw visit.id context.escapes } ∧
        ((answer = none ∧ context.escapes.head?.map Escape.owner ≠ some visit.id ∧
            withdraw visit.id context.escapes = context.escapes) ∨
          ∃ escape,
            answer =
            some
            ((context.dues.record slots escape context.entries.frames).against
            context.entries.frames) ∧
            escape.owner = visit.id ∧ context.escapes =
              escape :: withdraw visit.id context.escapes) := by
  refine ends_bind ((effect_takeEscape.and account_takeEscape).imp
    fun escape taken hTaken => ?_)
  obtain ⟨hEntries, hTaken, hEscape⟩ := hTaken
  obtain ⟨hTaken, -⟩ := Prod.mk.inj hTaken
  obtain ⟨rfl, hNone⟩ | ⟨newest, rfl, hOwn, hNewest⟩ := hEscape
  · exact ends_pure ⟨hTaken, .inl ⟨rfl, hNone⟩⟩
  · refine ends_bind
      (ends_get
      (ends_bind (ends_onRecords (fun records hPlace => ?_) fun _ _ => trivial)))
    have hTopped := entries_topped (Records.live_raise hPlace)
    have hFrames : taken.frames.depth = context.entries.frames.length := by
      rw [taken.frames.depth_eq]
      exact congrArg (List.length ∘ Entries.frames) hEntries
    have hRecord : (⟨(taken.escapeKind.bind slots.get?).getD .illegalEscape,
        (Bounded.write { limit := taken.messageLimit } (escapeText newest)).1.text,
          newest.site, .live taken.frames.depth⟩ : Record) =
        context.dues.record slots newest context.entries.frames := by
      have hKind : taken.escapeKind = context.dues.escapeKind :=
        congrArg Dues.escapeKind hTaken
      have hLimit : taken.messageLimit = context.dues.messageLimit :=
        congrArg Dues.messageLimit hTaken
      rw [hKind, hLimit, hFrames]
      rfl
    rw [hRecord, hEntries] at hTopped
    refine ends_bind (ends_modify (ends_bind (ends_note ?_)))
    refine ends_bind
      ((effect_catchInFlight.and (leaves_account_catchInFlight visit).yields).imp
      fun exception after hCaught =>
      ends_pure ⟨(congrArg Prod.fst hCaught.2).trans hTaken,
        .inr ⟨newest, ?_, hOwn, hNewest⟩⟩)
    obtain ⟨⟨region, outer, index, record, -, -, hIndex, hFound, rfl, -⟩, -⟩ := hCaught
    change { taken with records, inFlight := some (records.depth - 1) }.entries =
      _ at hTopped
    generalize hStart : Context.mk _ _ _ _ _ _ _ _ _ _ _ = start at hIndex hFound ⊢
    rw [(congrArg Context.entries hStart).symm.trans hTopped] at hIndex hFound ⊢
    cases hIndex
    rw [List.getElem?_concat_length] at hFound
    rw [← Option.some.inj hFound]

end

namespace Operation

/-- An operation that deals with escapes. -/
def MindsEscapes : Operation → Prop
  | .leave _ _ => True
  | .abandon _ => True
  | .claimEscape _ _ => True
  | _ => False

/-- Only operations that mind escapes change the account. -/
theorem leaves_account {operation : Operation} (h : ¬ operation.MindsEscapes) :
    Context.Leaves account operation.step := by
  have hidden {α : Type} {step : Step α} (hStep : Context.Leaves account step) :
      Context.Leaves account (discard step : Step Unit) :=
    fun context => leftBehind_discard step context ▸ hStep context
  cases operation with
  | enter site explicit => exact hidden (leaves_account_enter site explicit)
  | leave visit unwinding => exact absurd trivial h
  | abandon visit => exact absurd trivial h
  | catchInFlight visit => exact hidden (leaves_account_catchInFlight visit)
  | claimEscape slots visit => exact absurd trivial h
  | beginHandling visit => exact hidden (leaves_account_beginHandling visit)
  | measure table kind => exact hidden (leaves_account_measure table kind)
  | raise table kind site written =>
      exact hidden (leaves_account_raise table kind site written)
  | forward exception => exact hidden (leaves_account_forward exception)
  | openScope site => exact hidden (leaves_account_openScope site)
  | closeScope mark => exact hidden (leaves_account_closeScope mark)
  | shield mark => exact hidden (leaves_account_shield mark)
  | unshield mark => exact hidden (leaves_account_popDispatch mark .guard)
  | enterCall site => exact hidden (leaves_account_enterCall site)
  | leaveCall entry unwinding => exact hidden (leaves_account_leaveCall entry unwinding)

end Operation

/-! ## Steps of the machine -/

/-- A deed that is nothing to escapes. -/
def Deed.IsAside : Deed → Prop
  | .leaves _ _ _ => False
  | .abandons _ => False
  | .reports _ _ => False
  | _ => True

/-- What a deed does to the escapes. -/
def Deed.Settles (slots : Slots) (before after : Context) : Deed → Prop
  | .leaves visit _ _ => after.escapes = withdraw visit.id before.escapes
  | .abandons visit =>
      ∃ owner, reporterOf after.regions.live = some owner ∧ after.escapes =
        report owner visit.site before.escapes
  | .reports visit exception =>
      ∃ escape, before.escapes = escape :: after.escapes ∧ escape.owner = visit.id ∧
        exception = (before.dues.record slots escape before.entries.frames).against
          before.entries.frames
  | _ => after.escapes = before.escapes

namespace Machine

variable {ν : Type} {m : Machine ν} {before after : Context}

/-- What a thread has told of dropped escapes, newest first. -/
def dropped (m : Machine ν) : List (Site × Site) :=
  m.events.filterMap Event.dropped?

private theorem dropped_store (m : Machine ν) (context : Context) :
    (m.store context).dropped = context.dropped ++ m.dropped := by
  change (context.journal.map Event.notice ++ m.events).filterMap Event.dropped? = _
  rw [List.filterMap_append, List.filterMap_map]
  exact congrArg (· ++ m.dropped) (congrArg (List.filterMap · context.journal) rfl)

/-- The region whose body returns with the next step. -/
def returning? (m : Machine ν) : Option Visit :=
  match m.focus, m.control with
  | .deliver _, .body region :: _ => some region.visit
  | _, _ => none

/-- A body returns only when a value is delivered to it. -/
theorem returning?_of_focus (h : ∀ value, m.focus ≠ .deliver value) :
    m.returning? = none := by
  unfold returning?
  split
  · next hFocus _ => exact absurd hFocus (h _)
  · rfl

/-- And only when it is the body that waits for the value. -/
theorem returning?_of_control (h : ∀ region below, m.control ≠ .body region :: below) :
    m.returning? = none := by
  unfold returning?
  split
  · next hControl => exact absurd hControl (h _ _)
  · rfl

/-- A body that returns is the innermost code that waits, and a value is on its way to
it. -/
theorem exists_returns {visit : Visit} (h : m.returning? = some visit) :
    ∃ value region below, m.focus = .deliver value ∧ m.control = .body region :: below ∧
      region.visit = visit := by
  unfold returning? at h
  split at h
  · next value region below hFocus hControl =>
      exact ⟨value, region, below, hFocus, hControl, Option.some.inj h⟩
  · cases h

/-- What a step is about, as far as escapes go. -/
inductive Minds (m : Machine ν) : Prop
  | aside (isAside : m.deed.IsAside) (isRunning : m.returning? = none)
  | claims {value : Option ν} {region : Protected ν} {below : List (Resumption ν)}
      (hFocus : m.focus = .deliver value)
      (hControl : m.control = .body region :: below)
  | leaves {visit : Visit} {unwinding : Bool} {fate : Fate} {popped : Machine ν}
      {next : Machine ν → Unit → Machine ν}
      (hDeed : m.deed = .leaves visit unwinding fate)
      (hStep : m.step = popped.perform (Context.leave visit unwinding) next)
      (hContext : popped.context = m.context) (hEvents : popped.events = m.events)
      (hNext : ∀ stored, (next stored ()).context = stored.context ∧
        (next stored ()).dropped = stored.dropped)
      (isRunning : m.returning? = none)
  | abandons {visit : Visit} {next : Machine ν → Unit → Machine ν}
      (hDeed : m.deed = .abandons visit)
      (hStep : m.step = m.perform (Context.abandon visit) next)
      (hNext : ∀ stored, (next stored ()).context = stored.context)
      (isRunning : m.returning? = none)

/-- A deed that is aside whatever an operation answers is aside. -/
theorem aside_answering {α : Type} {step : Step α} {deed : α → Deed}
    (hDeed : ∀ answer, (deed answer).IsAside) :
    (m.answering step deed).IsAside := by
  unfold answering
  split
  · trivial
  · split
    · exact hDeed _
    · trivial

private theorem aside_closing (m : Machine ν) : m.closing.IsAside := by
  unfold closing
  split <;> trivial

private theorem minds_exec {stmt : Stmt ν} (hFocus : m.focus = .exec stmt) :
    m.Minds := by
  have isRunning : m.returning? = none := returning?_of_focus (by simp [hFocus])
  have aside (isAside : (m.deedOf stmt).IsAside) : m.Minds :=
    .aside (by simp only [deed, hFocus]; exact isAside) isRunning
  cases stmt with
  | release name how =>
      cases hTake : Handle.take? name m.control with
      | none => exact aside (by simp only [deedOf, hTake]; trivial)
      | some taken =>
          obtain ⟨handle, control⟩ := taken
          cases how with
          | leave =>
              cases handle with
              | region visit inUnwinding =>
                  have hStep :
                    m.step = ({ m with control } : Machine ν).perform
                      (Context.leave visit false)
                      fun stored _ => stored.goto (.complete none) := by
                    simp only [step, hFocus, exec, release, hTake]
                  have hDeed : m.deed = .leaves visit false .nothing := by
                    simp only [deed, hFocus, deedOf, hTake]
                  exact .leaves hDeed hStep rfl rfl (fun _ => ⟨rfl, rfl⟩) isRunning
              | _ => exact aside (by simp only [deedOf, hTake]; trivial)
          | shutdown =>
              cases handle with
              | thread =>
                  exact aside (by simp only [deedOf, hTake]; exact aside_closing m)
              | _ => exact aside (by simp only [deedOf, hTake]; trivial)
          | _ => exact aside (by simp only [deedOf, hTake]; trivial)
  | acquire name opening times =>
      refine aside ?_
      cases times with
      | zero => cases opening <;> trivial
      | succ times =>
          cases opening with
          | thread limits =>
              simp only [deedOf]
              split <;> trivial
          | region site => exact aside_answering fun _ => trivial
          | call site => exact aside_answering fun _ => trivial
          | guards site => trivial
  | protect levels site mode clauses body =>
      exact aside (aside_answering fun _ => trivial)
  | guard name flavor body =>
      refine aside ?_
      simp only [deedOf]
      split
      · split
        · exact aside_answering fun _ => trivial
        · trivial
      · trivial
  | annotate text =>
      refine aside ?_
      simp only [deedOf]
      split <;> trivial
  | _ => exact aside trivial

/-- Every step of a thread that has not been terminated is one of these. -/
theorem minds (hClear : m.poisoned = false) : m.Minds := by
  have aside (isAside : m.deed.IsAside) (hOther : ∀ value, m.focus ≠ .deliver value) :
      m.Minds :=
    .aside isAside (returning?_of_focus hOther)
  have passes (payload : Payload) (region : Protected ν) (below : List (Resumption ν))
      (hDeed : m.deed = .leaves region.visit true .nothing)
      (hStep : m.step = ({ m with control := below } : Machine ν).passThrough region
        payload)
      (hOther : ∀ value, m.focus ≠ .deliver value) : m.Minds := by
    simp only [passThrough, hClear, Bool.false_eq_true, if_false] at hStep
    exact .leaves hDeed hStep rfl rfl (fun _ => ⟨rfl, rfl⟩) (returning?_of_focus hOther)
  cases hFocus : m.focus with
  | exec stmt => exact minds_exec hFocus
  | drop handle =>
      have drops (isAside : m.deed.IsAside) : m.Minds :=
        aside isAside (by simp [hFocus])
      cases handle with
      | thread => exact drops (by simp only [deed, hFocus]; exact aside_closing m)
      | region visit inUnwinding =>
          cases hLeaves : m.isPanicking && !inUnwinding with
          | true =>
              have hStep : m.step = m.perform (Context.leave visit true) fun stored _ =>
                  stored.goto .next := by
                simp only [step, hFocus, drop, hClear, hLeaves, Bool.false_eq_true,
                  if_false, if_true]
              have hDeed : m.deed = .leaves visit true .nothing := by
                simp only [deed, hFocus, hLeaves, if_true]
              exact .leaves hDeed hStep rfl rfl
                (fun _ => ⟨rfl, rfl⟩) (returning?_of_focus (by simp [hFocus]))
          | false =>
              have hStep : m.step = m.perform (Context.abandon visit) fun stored _ =>
                  stored.goto .next := by
                simp only [step, hFocus, drop, hClear, hLeaves, Bool.false_eq_true,
                  if_false]
              exact .abandons
                (by simp only [deed, hFocus, hLeaves, Bool.false_eq_true, if_false])
                hStep (fun _ => rfl)
                (returning?_of_focus (by simp [hFocus]))
      | call entry inUnwinding => exact drops (by simp only [deed, hFocus]; trivial)
      | guards scope => exact drops (by simp only [deed, hFocus]; trivial)
  | deliver value =>
      cases hControl : m.control with
      | nil =>
          exact .aside (by simp only [deed, hFocus, hControl]; trivial)
            (returning?_of_control (by simp [hControl]))
      | cons waiting below =>
          cases waiting with
          | body region => exact .claims hFocus hControl
          | thread auto =>
              refine .aside ?_ (returning?_of_control (by simp [hControl]))
              cases auto with
              | true => simp only [deed, hFocus, hControl]; exact aside_closing m
              | false => simp only [deed, hFocus, hControl]; trivial
          | _ =>
              exact .aside (by simp only [deed, hFocus, hControl]; trivial)
                (returning?_of_control (by simp [hControl]))
  | unwind payload =>
      have goesOn (isAside : m.deed.IsAside) : m.Minds :=
        aside isAside (by simp [hFocus])
      cases hControl : m.control with
      | nil => exact goesOn (by simp only [deed, hFocus, hControl]; trivial)
      | cons waiting below =>
          cases waiting with
          | body region =>
              cases payload with
              | raise =>
                  exact goesOn
                    (by
                    simp only [deed, hFocus, hControl]; exact aside_answering
                      fun _ => trivial)
              | panic text =>
                  exact passes (.panic text) region below
                    (by simp only [deed, hFocus, hControl])
                    (by simp only [step, hFocus, propagate, hControl])
                      (by simp [hFocus])
              | termination termination =>
                  exact passes (.termination termination) region below
                    (by simp only [deed, hFocus, hControl])
                    (by simp only [step, hFocus, propagate, hControl])
                      (by simp [hFocus])
          | handler region =>
              exact passes payload region below (by simp only [deed, hFocus, hControl])
                (by simp only [step, hFocus, propagate, hControl]) (by simp [hFocus])
          | attempt resume =>
              refine goesOn ?_
              cases payload <;> simp only [deed, hFocus, hControl] <;> trivial
          | thread auto =>
              refine goesOn ?_
              cases auto with
              | true => simp only [deed, hFocus, hControl]; exact aside_closing m
              | false => simp only [deed, hFocus, hControl]; trivial
          | _ => exact goesOn (by simp only [deed, hFocus, hControl]; trivial)
  | offer region exception =>
      refine aside ?_ (by simp [hFocus])
      simp only [deed, hFocus]
      split <;> trivial
  | leave region outcome =>
      have hDeed : m.deed = .leaves region.visit false (fate region.mode outcome) := by
        simp only [deed, hFocus]
      refine .leaves hDeed (by simp only [step, hFocus, leave]; rfl) rfl rfl
        (fun stored => ?_) (returning?_of_focus (by simp [hFocus]))
      cases outcome <;> cases region.mode <;> exact ⟨rfl, rfl⟩
  | leaveScope scope =>
      refine aside ?_ (by simp [hFocus])
      simp only [deed, hFocus]
      split
      · trivial
      · split <;> trivial
  | write raising pieces =>
      refine aside ?_ (by simp [hFocus])
      simp only [deed, hFocus]
      split <;> trivial
  | _ => exact aside (by simp only [deed, hFocus]; trivial) (by simp [hFocus])

/-- An operation on escapes shows in the deed. -/
theorem Calls.spares {operation : Operation} (calls : m.Calls operation)
    (isAside : m.deed.IsAside) (isRunning : m.returning? = none) :
    ¬ operation.MindsEscapes := by
  intro hMinds
  cases calls with
  | release hFocus hTake =>
      simp only [deed, hFocus, deedOf, hTake] at isAside
      exact isAside
  | dropRegion hFocus isLeft =>
      simp only [deed, hFocus, isLeft, if_true] at isAside
      exact isAside
  | abandon hFocus isLeft =>
      simp only [deed, hFocus, isLeft, Bool.false_eq_true, if_false] at isAside
      exact isAside
  | claim hFocus hControl =>
      simp only [returning?, hFocus, hControl] at isRunning
      cases isRunning
  | passBody hFocus isPanic hControl =>
      simp only [deed, hFocus, hControl] at isAside
      exact isAside
  | passHandler hFocus hControl =>
      simp only [deed, hFocus, hControl] at isAside
      exact isAside
  | leave hFocus =>
      simp only [deed, hFocus] at isAside
      exact isAside
  | _ => exact hMinds

/-- The body of a region has returned: the region reports the newest escape if that is
its own, or goes on with the value. -/
theorem claim_step {value : Option ν} {region : Protected ν}
    {below : List (Resumption ν)} (hFocus : m.focus = .deliver value)
    (hControl : m.control = .body region :: below) (hBefore : m.context = some before)
    (hGoesOn : m.step.poisoned = false) :
    ∃ after, m.step.context = some after ∧ m.step.control = below ∧ (
      (before.escapes.head?.map Escape.owner ≠ some region.visit.id ∧ m.deed = .rests ∧
        m.step.focus = .leave region (.ok value) ∧ after.dues = before.dues) ∨
      ∃ escape older, before.escapes = escape :: older ∧
        escape.owner = region.visit.id ∧
        after.dues = { before.dues with escapes := older } ∧
        m.deed =
          .reports region.visit
          ((before.dues.record m.registry.slots escape before.entries.frames).against
          before.entries.frames) ∧
        m.step.focus =
          .offer region
            ((before.dues.record m.registry.slots escape before.entries.frames).against
            before.entries.frames)) := by
  have hStep : m.step = m.deliver value := by rw [step, hFocus]
  have hAnswers {deed : Option Exception → Deed} {context left : Context}
    {answer : Option Exception}
    (hContext : m.context = some context)
        (hOk : Context.claimEscape m.registry.slots region.visit context =
        .ok answer left) :
      m.answering (Context.claimEscape m.registry.slots region.visit) deed =
        deed answer := answering_ok hContext hOk
  simp only [hStep, deliver, hControl] at hGoesOn ⊢
  obtain ⟨context, answer, left, hContext, hOk, hPerformed⟩ := perform_goesOn hGoesOn
  obtain rfl := Option.some.inj (hBefore.symm.trans hContext)
  rw [hPerformed]
  obtain ⟨hDues, ⟨rfl, hOther, hSame⟩ | ⟨escape, rfl, hOwn, hEscapes⟩⟩ :=
    dues_claimEscape.of_ok hOk
  · refine ⟨_, rfl, rfl, .inl ⟨hOther, ?_, rfl, ?_⟩⟩
    · simp only [deed, hFocus, hControl, hAnswers hBefore hOk]
    · rw [hSame] at hDues
      exact hDues
  · refine ⟨_, rfl, rfl, .inr ⟨escape, _, hEscapes, hOwn, hDues, ?_, rfl⟩⟩
    simp only [deed, hFocus, hControl, hAnswers hBefore hOk]

/-- What a step does to the escapes, by its deed; which kind reports them, and how long
its message may be, stays as it is. -/
theorem settles_step (hClear : m.poisoned = false) (hBefore : m.context = some before)
    (hAfter : m.step.context = some after) (hGoesOn : m.step.poisoned = false) :
    m.deed.Settles m.registry.slots before after ∧ after.escapeKind =
      before.escapeKind ∧ after.messageLimit = before.messageLimit := by
  have settled {escapes : List Escape}
    (hDues : after.dues = { before.dues with escapes }) :
      after.escapes = escapes ∧ after.escapeKind = before.escapeKind ∧
        after.messageLimit = before.messageLimit :=
    ⟨congrArg Dues.escapes hDues, congrArg Dues.escapeKind hDues,
      congrArg Dues.messageLimit hDues⟩
  cases m.minds hClear with
  | aside isAside isRunning =>
      have hSame : after.dues = before.dues := by
        cases (leads_step m).carries hBefore hAfter with
        | keeps => rfl
        | annotates => rfl
        | performs calls =>
            exact congrArg Prod.fst
              (Operation.leaves_account (calls.spares isAside isRunning) before)
      obtain ⟨hEscapes, hRest⟩ := settled hSame
      refine ⟨?_, hRest⟩
      generalize m.deed = deed at isAside
      cases deed <;> first | exact hEscapes | exact isAside.elim
  | claims hFocus hControl =>
      obtain ⟨left, hLeft, -,
          ⟨-, hDeed, -, hDues⟩ | ⟨escape, older, hEscapes, hOwn, hDues, hDeed, -⟩⟩ :=
        claim_step hFocus hControl hBefore hGoesOn
      · obtain rfl := Option.some.inj (hAfter.symm.trans hLeft)
        rw [hDeed]
        exact settled hDues
      · obtain rfl := Option.some.inj (hAfter.symm.trans hLeft)
        obtain ⟨rfl, hRest⟩ := settled hDues
        rw [hDeed]
        exact ⟨⟨escape, hEscapes, hOwn, rfl⟩, hRest⟩
  | leaves hDeed hStep hContext hEvents hNext isRunning =>
      rw [hStep] at hGoesOn hAfter
      obtain ⟨context, _, left, hSome, hOk, hPerformed⟩ := perform_goesOn hGoesOn
      obtain rfl := Option.some.inj (hBefore.symm.trans (hContext.symm.trans hSome))
      rw [hPerformed, (hNext _).1] at hAfter
      obtain rfl := Option.some.inj hAfter
      rw [hDeed]
      exact settled (congrArg Prod.fst (account_leave.of_ok hOk))
  | abandons hDeed hStep hNext isRunning =>
      rw [hStep] at hGoesOn hAfter
      obtain ⟨context, _, left, hSome, hOk, hPerformed⟩ := perform_goesOn hGoesOn
      obtain rfl := Option.some.inj (hBefore.symm.trans hSome)
      rw [hPerformed, hNext] at hAfter
      obtain rfl := Option.some.inj hAfter
      obtain ⟨owner, hReporter, hDues⟩ := dues_abandon.of_ok hOk
      obtain ⟨hEscapes, hRest⟩ := settled hDues
      rw [hDeed]
      exact ⟨⟨owner, hReporter, hEscapes⟩, hRest⟩

/-- A region that is left tells of the escape that it drops, if there is one. -/
theorem dropped_step {visit : Visit} {unwinding : Bool} {fate : Fate}
    (hClear : m.poisoned = false) (hAll : m.HasToldAll)
    (hDeed : m.deed = .leaves visit unwinding fate) (hBefore : m.context = some before)
    (hGoesOn : m.step.poisoned = false) :
    m.step.dropped = dropping visit before.escapes ++ m.dropped := by
  cases m.minds hClear with
  | aside isAside isRunning =>
      rw [hDeed] at isAside
      exact isAside.elim
  | claims hFocus hControl =>
      obtain ⟨left, -, -, ⟨-, hOther, -⟩ | ⟨escape, older, -, -, -, hOther, -⟩⟩ :=
        claim_step hFocus hControl hBefore hGoesOn
      · cases hDeed.symm.trans hOther
      · cases hDeed.symm.trans hOther
  | leaves hSame hStep hContext hEvents hNext isRunning =>
      cases hDeed.symm.trans hSame
      rw [hStep] at hGoesOn ⊢
      obtain ⟨context, _, left, hSome, hOk, hPerformed⟩ := perform_goesOn hGoesOn
      obtain rfl := Option.some.inj (hBefore.symm.trans (hContext.symm.trans hSome))
      have hTold := congrArg Prod.snd (account_leave.of_ok hOk)
      have hNone : before.dropped = [] := by
        rw [Context.dropped, hAll before hBefore]; rfl
      rw [hPerformed, (hNext _).2, dropped_store,
        show left.dropped = dropping visit before.escapes ++ before.dropped from hTold,
        hNone, List.append_nil]
      exact congrArg (_ ++ ·) (congrArg (List.filterMap Event.dropped?) hEvents)
  | abandons hSame => cases hDeed.symm.trans hSame

end Machine

end Unwinding
