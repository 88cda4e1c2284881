import Unwinding.Proofs.Deeds
import Unwinding.Proofs.WellFormed

/-!
# How exceptions were raised

A record that points into the live frames is good only as long as those frames are
there. This module follows each exception of a run from its raise: what was raised,
where, and in which calls (`Raised`). A `Lineage` remembers this for every record, for
every variable and for the exception in hand. It is no part of the runtime: only a
raise, and the report of an abandoned region, writes down what was raised, from the call
trace of that moment, and every other step hands it on.

The law is that nothing is ever forgotten or mixed up. Whatever a program does, and in
whatever order it closes its handles, as long as its thread is not terminated every
record means the exception that was raised, against the frames as they are now, and
points to no frame that has gone away.

## Main results

* `Deed.Turns.tells` — what a deed does to the meaning of the records.
* `Remembers.step` — one step keeps what is remembered true, and `Remembered.remembers`
  — so does a run.
* `faithful_of_remembered` — the anchors of the records, and the exceptions that are
  handed out.
-/

namespace Unwinding

open Context

/-! ## What is remembered -/

/-- What was raised, where, and the calls in progress at that moment, oldest first.

Annotations are left out, because a program may annotate a frame at any time; where they
matter, `Imprint` keeps them. -/
structure Raised where
  kind : Kind
  message : String
  origin : Site
  sites : List Site
  deriving DecidableEq

/-- What an exception says about its raise; annotations of frames are no part of
that. -/
def Exception.raised (exception : Exception) : Raised :=
  ⟨exception.kind, exception.message, exception.origin, exception.frames.map Frame.site⟩

/-- How each exception was raised that a thread has: the records, oldest first, the
variables, and the one in hand.

The two raising deeds write down what is raised at that moment, and all other deeds only
move it. What is remembered is therefore independent of what the records point to, and
can be compared with it. -/
structure Lineage where
  records : List Raised := []
  bindings : List (String × Raised) := []
  held : Option Raised := none

/-- The calls in progress, oldest first. -/
def Entries.sites (entries : Entries) : List Site :=
  (entries.frames.map Frame.site).reverse

namespace Lineage

/-- The records after a deed. The two deeds that raise write the calls in progress
down. -/
def recordsAfter (known : Lineage) (entries : Entries) : Deed → List Raised
  | .opens => []
  | .closes => []
  | .raises kind message origin =>
      known.records ++ [⟨kind, message, origin, entries.sites⟩]
  | .reports _ exception =>
      known.records ++
        [⟨exception.kind, exception.message, exception.origin, entries.sites⟩]
  | .forwards _ => known.records ++ known.held.toList
  | .leaves visit unwinding _ =>
      released entries.inFlight visit.entry.exceptions unwinding known.records
  | .abandons visit =>
      released entries.inFlight visit.entry.exceptions false known.records
  | _ => known.records

/-- What is in hand after a deed. -/
def heldAfter (known : Lineage) (entries : Entries) : Deed → Option Raised
  | .declines _ => known.held
  | .leaves _ _ (.sentOn _) => known.held
  | .recalls name => known.bindings.lookup name
  | .catches _ _ => entries.inFlight.bind fun index => known.records[index]?
  | .reports _ exception =>
      some ⟨exception.kind, exception.message, exception.origin, entries.sites⟩
  | _ => none

/-- A variable takes what is in hand. -/
def keep (known : Lineage) (name : String) : List (String × Raised) :=
  match known.held with
  | some raised => assigned name raised known.bindings
  | none => known.bindings

/-- The variables after a deed. -/
def bindingsAfter (known : Lineage) : Deed → List (String × Raised)
  | .leaves _ _ (.kept _ name) => known.keep name
  | .handles _ _ name => known.keep name
  | _ => known.bindings

end Lineage

/-- What is remembered after the next step of a machine. -/
def Machine.remember {ν : Type} (m : Machine ν) (known : Lineage) : Lineage where
  records := known.recordsAfter (m.entries?.getD .empty) m.deed
  bindings := known.bindingsAfter m.deed
  held := known.heldAfter (m.entries?.getD .empty) m.deed

/-- A run from a machine, a ledger and what is remembered there, through steps that are
all allowed and none of which terminates the thread. -/
inductive Remembered {ν : Type} (allowed : Machine ν → List Extent → Prop)
    (start : Machine ν) (opened : List Extent)
    (recalled : Lineage) : Machine ν → List Extent → Lineage → Prop
  | start : Remembered allowed start opened recalled start opened recalled
  | step {m : Machine ν} {ledger : List Extent} {known : Lineage}
      (before : Remembered allowed start opened recalled m ledger known)
      (isAllowed : allowed m ledger)
      (goesOn : m.step.poisoned = false) :
      Remembered allowed start opened recalled m.step (m.move.apply ledger)
        (m.remember known)

/-! ## The meaning of records -/

namespace Record

variable {record : Record}

/-- What a record says about its raise depends on the sites of the frames only. -/
theorem raised_against (record : Record) (frames : List Frame) :
    (record.against frames).raised = ⟨record.kind, record.message, record.origin,
      match record.trace with
      | .live depth => ((frames.map Frame.site).drop (frames.length - depth)).reverse
      | .owned copied => copied.map Frame.site⟩ := by
  unfold against Exception.raised
  cases record.trace with
  | live depth => simp only [List.map_reverse, List.map_drop]
  | owned copied => rfl

/-- What a record says was raised goes by the sites of the frames alone, so a text at a
frame makes no difference to it. -/
theorem raised_against_modifyHead (record : Record) {frames : List Frame}
    {f : Frame → Frame} (hSite : ∀ frame, (f frame).site = frame.site) :
    (record.against (frames.modifyHead f)).raised = (record.against frames).raised := by
  have hSites : (frames.modifyHead f).map Frame.site = frames.map Frame.site := by
    cases frames with
    | nil => rfl
    | cons top rest => simp only [List.modifyHead_cons, List.map_cons, hSite]
  rw [raised_against, raised_against, hSites, List.length_modifyHead]

/-- A call that is entered is no part of an exception that was raised before. -/
theorem against_cons {frame : Frame} {frames : List Frame}
    (h : record.reachesAbove frames.length = false) :
    record.against (frame :: frames) = record.against frames := by
  have hSettled := against_settle record [frame] frames
  rw [settle_of_not_reachesAbove h] at hSettled
  exact hSettled.symm

end Record

/-- The record of a raise says that it was raised in the calls in progress. -/
theorem raised_live (kind : Kind) (message : String) (origin : Site)
    (entries : Entries) :
    ((⟨kind, message, origin, .live entries.frames.length⟩ : Record).against
      entries.frames).raised =
      ⟨kind, message, origin, entries.sites⟩ := by
  rw [Record.raised_against]
  simp only [Nat.sub_self, List.drop_zero]
  rfl

/-- Records point to frames that are there, and mean what was raised. -/
structure Tells (records : List Record) (frames : List Frame) (known : List Raised) :
    Prop where
  anchored : ∀ record ∈ records, record.reachesAbove frames.length = false
  means : records.map (fun record => (record.against frames).raised) = known

namespace Tells

variable {records : List Record} {frames above below : List Frame} {known : List Raised}

private theorem cons (h : Tells records frames known) (frame : Frame) :
    Tells records (frame :: frames) known where
  anchored :=
    fun record hMem => Record.reachesAbove_mono (h.anchored record hMem) (Nat.le_succ _)
  means := by
    rw [← h.means]
    refine List.map_congr_left fun record hMem => ?_
    rw [Record.against_cons (h.anchored record hMem)]

private theorem modifyHead (h : Tells records frames known) {f : Frame → Frame}
    (hSite : ∀ frame, (f frame).site = frame.site) :
    Tells records (frames.modifyHead f) known where
  anchored := by
    rw [List.length_modifyHead]
    exact h.anchored
  means := by
    rw [← h.means]
    exact List.map_congr_left fun record _ => record.raised_against_modifyHead hSite

/-- Records that are settled may lose the frames above that depth. -/
theorem settle {depth : Nat} (hFrames : frames = above ++ below)
    (hCount : below.length = depth)
    (h : records.map (fun record => (record.against frames).raised) = known) :
    Tells (records.map fun record => record.settle depth frames) below known := by
  subst hFrames hCount
  constructor
  · intro record hMem
    obtain ⟨unsettled, -, rfl⟩ := List.mem_map.1 hMem
    exact Record.reachesAbove_settle _ _ _
  · rw [← h, List.map_map]
    refine List.map_congr_left fun record _ => ?_
    rw [Function.comp_apply, Record.against_settle]

/-- What is released is forgotten, what is kept is not. -/
theorem released (h : Tells records frames known) {depth : Nat}
    (hFrames : frames = above ++ below) (hCount : below.length = depth)
    (inFlight : Option Nat) (floor : Nat) (keep : Bool) :
    Tells ((Unwinding.released inFlight floor keep records).map
      fun record => record.settle depth frames) below
      (Unwinding.released inFlight floor keep known) := by
  refine settle hFrames hCount ?_
  rw [map_released, h.means]

private theorem append (h : Tells records frames known) {record : Record}
    {raised : Raised} (hAnchored : record.reachesAbove frames.length = false)
    (hMeans : (record.against frames).raised = raised) :
    Tells (records ++ [record]) frames (known ++ [raised]) where
  anchored := by
    intro other hMem
    rcases List.mem_append.1 hMem with hOld | hNew
    · exact h.anchored other hOld
    · rw [List.mem_singleton] at hNew
      exact hNew ▸ hAnchored
  means := by rw [List.map_append, h.means, List.map_singleton, hMeans]

private theorem raise (h : Tells records frames known) (kind : Kind) (message : String)
    (origin : Site) :
    Tells (records ++ [⟨kind, message, origin, .live frames.length⟩]) frames
      (known ++ [⟨kind, message, origin, (frames.map Frame.site).reverse⟩]) := by
  refine h.append ?_ ?_
  · simp [Record.reachesAbove]
  · rw [Record.raised_against]
    simp only [Nat.sub_self, List.drop_zero]

/-- The record at an index, and what was raised. -/
theorem getElem? (h : Tells records frames known) {index : Nat} {record : Record}
    (hRecord : records[index]? = some record) :
    known[index]? = some (record.against frames).raised := by
  rw [← h.means, List.getElem?_map, hRecord]
  rfl

end Tells

/-- A context of a thread, whose records mean what is known of them. -/
def Entries.Tells (entries : Entries) (known : List Raised) : Prop :=
  Unwinding.Tells entries.records entries.frames known

/-! ## One step -/

/-- What a deed does to the meaning of the records. -/
theorem Deed.Turns.tells {deed : Deed} {before after : Entries} {known : Lineage}
    (h : deed.Turns before after) (hTells : before.Tells known.records)
    (hHeld : ∀ exception, deed = .forwards exception →
      known.held = some exception.raised) :
    after.Tells (known.recordsAfter before deed) := by
  cases h with
  | quiet isQuiet => cases deed <;> first | exact hTells | exact isQuiet.elim
  | annotates => exact hTells.modifyHead fun _ => rfl
  | enters number measured => exact hTells.cons _
  | entersCall measured => exact hTells.cons _
  | @leaves _ visit unwinding fate frame frames isFramed count =>
      have hFrames : frames = before.frames.tail := by rw [isFramed]; rfl
      have hSplit : before.frames = [frame] ++ frames := isFramed
      have hReleased :=
        Unwinding.Tells.released hTells hSplit count before.inFlight
        visit.entry.exceptions unwinding
      rw [hFrames] at hReleased
      exact hReleased
  | abandons isFramed count =>
      exact Unwinding.Tells.released hTells isFramed count _ _ _
  | leavesCall isFramed count =>
      exact Unwinding.Tells.settle isFramed count hTells.means
  | catches innermost inFlight found => exact hTells
  | handles innermost marked own => exact hTells
  | reports innermost => exact hTells.raise _ _ _
  | raises isCaught => exact hTells.raise _ _ _
  | @forwards _ exception isCaught =>
      change Unwinding.Tells _ _ (known.records ++ known.held.toList)
      rw [hHeld exception rfl]
      exact hTells.append rfl rfl
  | opensScope number => exact hTells
  | shields => exact hTells
  | unshields marked => exact hTells

/-- Variables and exceptions in hand are as they were raised. -/
theorem lookup_raised (name : String) (bindings : List (String × Exception)) :
    (bindings.map fun (name, exception) => (name, exception.raised)).lookup name =
      (bindings.lookup name).map Exception.raised := by
  induction bindings with
  | nil => rfl
  | cons binding rest ih =>
      obtain ⟨other, exception⟩ := binding
      simp only [List.map_cons, List.lookup_cons]
      cases name == other with
      | true => rfl
      | false => exact ih

/-- A variable that is assigned is assigned in every view of the variables. -/
theorem map_assigned {α β : Type} (f : α → β) (name : String) (value : α)
    (bindings : List (String × α)) :
    (assigned name value bindings).map (fun (name, value) => (name, f value)) =
      assigned name (f value) (bindings.map fun (name, value) => (name, f value)) := by
  unfold assigned
  rw [List.map_cons, List.filter_map]
  rfl

/-- What is remembered is true of a state: the records mean what was raised, as do the
variables and the exception in hand. -/
structure Remembers {ν : Type} (known : Lineage) (m : Machine ν) : Prop where
  clear : m.poisoned = false
  closed : m.context = none → known.records = []
  records : ∀ context, m.context = some context → context.entries.Tells known.records
  held : m.focus.carried?.map Exception.raised = known.held
  bindings : (m.bindings.map fun (name, exception) => (name, exception.raised)) =
    known.bindings

section

variable {ν : Type} {m : Machine ν} {known : Lineage}

/-- What a deed spends was in hand. -/
theorem Remembers.spent (h : Remembers known m) {exception : Exception}
    (hSpends : m.deed.spends? = some exception) :
    known.held = some exception.raised := by
  rw [← h.held, Machine.carried_of_spends hSpends]
  rfl

private theorem Remembers.keep (h : Remembers known m) {exception : Exception}
    {name : String} (hSpends : m.deed.spends? = some exception) :
    ((assigned name exception m.bindings).map fun (name, exception) =>
      (name, exception.raised)) = known.keep name := by
  rw [map_assigned, h.bindings, Lineage.keep, h.spent hSpends]

/-- The records after a step. -/
theorem Remembers.tells (h : Remembers known m) {deed : Deed} {after : Option Entries}
    (hActs : deed.Acts m.entries? after) (hDeed : m.deed = deed) :
    (after = none → known.recordsAfter (m.entries?.getD .empty) deed = []) ∧
      ∀ entries, after = some entries →
        entries.Tells (known.recordsAfter (m.entries?.getD .empty) deed) := by
  generalize hBefore : m.entries? = before at hActs
  cases hActs with
  | @turns _ before next hTurns =>
      obtain ⟨context, hContext, rfl⟩ := Machine.exists_of_entries? hBefore
      refine ⟨fun hNone => (nomatch hNone), fun entries hSome => ?_⟩
      cases hSome
      refine hTurns.tells (h.records context hContext) fun exception hForwards => ?_
      exact h.spent (by rw [hDeed, hForwards]; rfl)
  | quiet isQuiet =>
      refine ⟨fun _ => ?_, fun _ hSome => nomatch hSome⟩
      have hNone := h.closed (Option.map_eq_none_iff.1 hBefore)
      cases deed <;> first | exact hNone | exact isQuiet.elim
  | opens =>
      refine ⟨fun hNone => (nomatch hNone), fun entries hSome => ?_⟩
      cases hSome
      exact ⟨fun _ hMem => (nomatch hMem), rfl⟩
  | closes => exact ⟨fun _ => rfl, fun _ hSome => nomatch hSome⟩

/-- What is in hand after a step. -/
theorem Remembers.hands (h : Remembers known m) {deed : Deed} {after : Option Entries}
    (hActs : deed.Acts m.entries? after) (hDeed : m.deed = deed) :
    (deed.hand m.bindings).map Exception.raised =
      known.heldAfter (m.entries?.getD .empty) deed := by
  cases deed with
  | declines exception => exact (h.spent (by rw [hDeed]; rfl)).symm
  | leaves visit unwinding fate =>
      cases fate with
      | sentOn exception => exact (h.spent (by rw [hDeed]; rfl)).symm
      | nothing => rfl
      | kept exception name => rfl
  | recalls name =>
      change (m.bindings.lookup name).map Exception.raised = known.bindings.lookup name
      rw [← h.bindings, lookup_raised]
  | catches visit exception =>
      generalize hBefore : m.entries? = before at hActs ⊢
      cases hActs with
      | @turns _ before next hTurns =>
          obtain ⟨context, hContext, rfl⟩ := Machine.exists_of_entries? hBefore
          cases hTurns with
          | quiet isQuiet => exact isQuiet.elim
          | catches innermost inFlight found =>
              change _ = context.entries.inFlight.bind _
              rw [inFlight]
              exact ((h.records context hContext).getElem? found).symm
      | quiet isQuiet => exact isQuiet.elim
  | reports visit exception =>
      generalize m.entries? = before at hActs ⊢
      cases hActs with
      | turns hTurns =>
          cases hTurns with
          | quiet isQuiet => exact isQuiet.elim
          | reports innermost => exact congrArg some (raised_live _ _ _ _)
      | quiet isQuiet => exact isQuiet.elim
  | _ => rfl

/-- One step of a run. -/
theorem Remembers.step (h : Remembers known m) (hGoesOn : m.step.poisoned = false) :
    Remembers (m.remember known) m.step := by
  have hDid := Machine.did_step h.clear hGoesOn
  obtain ⟨hNone, hSome⟩ := h.tells hDid.acts rfl
  refine ⟨hGoesOn, fun hContext => ?_, fun context hContext => ?_, ?_, ?_⟩
  · exact hNone (by rw [Machine.entries?, hContext]; rfl)
  · exact hSome _ (Machine.entries?_some hContext)
  · rw [hDid.hand]
    exact h.hands hDid.acts rfl
  · rw [hDid.bindings]
    change _ = known.bindingsAfter m.deed
    cases hDeed : m.deed with
    | leaves visit unwinding fate =>
        cases fate with
        | kept exception name => exact h.keep (by rw [hDeed]; rfl)
        | nothing => exact h.bindings
        | sentOn exception => exact h.bindings
    | handles visit exception name => exact h.keep (by rw [hDeed]; rfl)
    | _ => exact h.bindings

/-- What is remembered is one entry for each record. -/
theorem Remembers.length_records {context : Context} (h : Remembers known m)
    (hContext : m.context = some context) :
    known.records.length = context.entries.records.length := by
  rw [← (h.records context hContext).means, List.length_map]

/-- What is remembered after a step on a context that is there. -/
theorem records_remember {context : Context} (known : Lineage)
    (hContext : m.context = some context) :
    (m.remember known).records = known.recordsAfter context.entries m.deed := by
  rw [Machine.remember, Machine.entries?_some hContext]
  rfl

/-! ## Whole runs -/

/-- Before a program has begun there is nothing to remember. -/
theorem remembers_start (process : Process) (auto : Bool) (limits : Option Limits)
    (body : List (Stmt ν)) :
    Remembers {} (Machine.start process auto limits body) := by
  obtain ⟨hBindings, hHand, hEntries⟩ := Machine.start_fresh process auto limits body
  refine ⟨(sound_start False process auto limits body).clear, fun _ => rfl,
    fun context hContext => ?_, ?_, ?_⟩
  · rw [hEntries context hContext]
    exact ⟨fun _ hMem => (nomatch hMem), rfl⟩
  · rw [hHand]
    rfl
  · rw [hBindings]
    rfl

section

variable {allowed : Machine ν → List Extent → Prop} {start : Machine ν}
    {opened ledger : List Extent} {recalled : Lineage}

/-- What is remembered stays true all along a run. -/
theorem Remembered.remembers
    (h : Remembered allowed start opened recalled m ledger known)
    (hStart : Remembers recalled start) : Remembers known m := by
  induction h with
  | start => exact hStart
  | step before isAllowed goesOn ih => exact ih.step goesOn

/-- Every run has a lineage. -/
theorem Reaches.remembered (recalled : Lineage)
    (h : Reaches allowed start opened m ledger) :
    ∃ known, Remembered allowed start opened recalled m ledger known := by
  induction h with
  | start => exact ⟨recalled, .start⟩
  | step before isAllowed goesOn ih =>
      obtain ⟨known, hKnown⟩ := ih
      exact ⟨_, hKnown.step isAllowed goesOn⟩

end

/-! ## Exceptions that are handed out -/

namespace Machine

/-- The exception that an operation hands back, because there is nothing to catch it. -/
def handedBack? (m : Machine ν) (step : Step (Option Exception)) : Option Exception :=
  match m.ask step with
  | .ok (.ok answer _) => answer
  | _ => none

/-- The machine once the message of a raise is complete. -/
def freed (m : Machine ν) : Machine ν :=
  { m with inUse := false }

/-- The exception that the next step finds nothing to catch it. -/
def uncaught? (m : Machine ν) : Option Exception :=
  match m.focus with
  | .forward exception => m.handedBack? (Context.forward exception)
  | .write raising pieces =>
      match raising.finished? pieces with
      | some raising =>
          m.freed.handedBack?
            (Context.raise m.registry.table raising.kind raising.site
            raising.buffer.text)
      | none => none
  | _ => none

/-- The exception that the next step hands out: to the clauses of a region, to what a
region is left for, to code that asks for the newest one, or to the report of a thread
in which nothing catches it. -/
def handsOut? (m : Machine ν) : Option Exception :=
  match m.focus with
  | .offer _ exception => some exception
  | .leave _ (.error exception) => some exception
  | .exec .current => m.current?
  | .exec .state => m.current?
  | _ => m.uncaught?

/-- An exception that a step hands back came from a step on a context that was there and
not in use. -/
theorem handedBack?_eq_some {step : Step (Option Exception)} {exception : Exception}
    (h : m.handedBack? step = some exception) :
    ∃ context after, m.inUse = false ∧ m.context = some context ∧
      step context = .ok (some exception) after := by
  unfold handedBack? ask at h
  cases hUse : m.inUse with
  | true =>
      rw [hUse] at h
      cases h
  | false =>
      rw [hUse] at h
      cases hContext : m.context with
      | none =>
          rw [hContext] at h
          cases h
      | some context =>
          rw [hContext] at h
          cases hOutcome : step context with
          | error error after =>
              simp only [hOutcome] at h
              cases h
          | ok answer after =>
              simp only [hOutcome] at h
              exact ⟨context, after, rfl, rfl, by rw [← h, hOutcome]; rfl⟩

private theorem perform_handedBack {step : Step (Option Exception)}
    {exception : Exception} (next : Machine ν → Option Exception → Machine ν)
    (h : m.handedBack? step = some exception) :
    ∃ stored, m.perform step next = next stored (some exception) := by
  obtain ⟨context, after, hFree, hContext, hOk⟩ := handedBack?_eq_some h
  refine ⟨m.store after, ?_⟩
  unfold perform
  rw [if_neg (by simp [hFree])]
  simp only [hContext, hOk]

/-- A message whose last piece is written is raised. -/
theorem write_of_finished? {raising finished : Raising} {pieces : List (Piece ν)}
    (h : raising.finished? pieces = some finished) :
    m.write raising pieces = m.finishRaise finished := by
  unfold Raising.finished? at h
  split at h
  · cases h
    rfl
  · next text rest =>
      cases hWrite : raising.buffer.write text with
      | mk buffer fits =>
          rw [hWrite] at h
          cases fits with
          | true => cases h
          | false =>
              cases h
              simp only [write, hWrite]
  · cases h

/-- An exception that nothing catches is reported as it is. -/
theorem step_uncaught {exception : Exception} (h : m.uncaught? = some exception) :
    ∃ stored : Machine ν, m.step = stored.uncaught exception := by
  unfold uncaught? at h
  cases hFocus : m.focus with
  | forward found =>
      simp only [hFocus] at h
      simp only [step, hFocus]
      exact perform_handedBack _ h
  | write raising pieces =>
      simp only [hFocus] at h
      cases hFinished : raising.finished? pieces with
      | none =>
          rw [hFinished] at h
          cases h
      | some finished =>
          rw [hFinished] at h
          simp only [step, hFocus, write_of_finished? hFinished]
          unfold finishRaise
          exact perform_handedBack (m := m.freed) _ h
  | _ =>
      simp only [hFocus] at h
      cases h

end Machine

/-- How the exception was raised that the next step of a machine hands out. -/
def Lineage.due (known : Lineage) (m : Machine ν) : Option Raised :=
  match m.focus with
  | .exec .current => known.records.getLast?
  | .exec .state => known.records.getLast?
  | .write raising pieces =>
      (raising.finished? pieces).map fun raising =>
        ⟨raising.kind, m.messageOf raising, raising.site,
          (m.entries?.getD .empty).sites⟩
  | _ => known.held

/-- The newest record is what a thread is asked for. -/
theorem Remembers.current (h : Remembers known m) {exception : Exception}
    (hCurrent : m.current? = some exception) :
    known.records.getLast? = some exception.raised := by
  unfold Machine.current? Machine.ask at hCurrent
  cases hUse : m.inUse with
  | true =>
      rw [hUse] at hCurrent
      cases hCurrent
  | false =>
      rw [hUse] at hCurrent
      cases hContext : m.context with
      | none =>
          rw [hContext] at hCurrent
          cases hCurrent
      | some context =>
          rw [hContext] at hCurrent
          change context.current? = some exception at hCurrent
          obtain ⟨record, hTop, rfl⟩ := Option.map_eq_some_iff.1 hCurrent
          have hLast : context.entries.records.getLast? = some record := by
            rw [← hTop]
            exact List.getLast?_reverse
          rw [← (h.records context hContext).means, List.getLast?_map, hLast,
            Record.toException_eq_against]
          rfl

/-- What nothing catches is in hand, or was raised in the calls in progress. -/
theorem Remembers.uncaught (h : Remembers known m) {exception : Exception}
    (hUncaught : m.uncaught? = some exception) :
    known.due m = some exception.raised := by
  unfold Machine.uncaught? at hUncaught
  have hHeld := h.held
  cases hFocus : m.focus with
  | forward found =>
      simp only [hFocus] at hUncaught
      obtain ⟨context, after, -, -, hOk⟩ := Machine.handedBack?_eq_some hUncaught
      rw [hFocus] at hHeld
      obtain ⟨hNone, -⟩ | hSame := effect_forward.of_ok hOk
      · cases hNone
      · cases hSame
        simp only [Lineage.due, hFocus]
        exact hHeld.symm
  | write raising pieces =>
      simp only [hFocus] at hUncaught
      cases hFinished : raising.finished? pieces with
      | none =>
          rw [hFinished] at hUncaught
          cases hUncaught
      | some finished =>
          rw [hFinished] at hUncaught
          obtain ⟨context, after, -, hContext, hOk⟩ :=
            Machine.handedBack?_eq_some hUncaught
          obtain ⟨hNone, -⟩ | ⟨found, hSame, hMeans⟩ := effect_raise.of_ok hOk
          · cases hNone
          · cases hSame
            have hEntries : m.entries? = some context.entries :=
              Machine.entries?_some hContext
            simp only [Lineage.due, hFocus, hFinished, hEntries, Option.getD_some,
              Option.map_some]
            rw [hMeans, raised_live]
            rfl
  | _ =>
      simp only [hFocus] at hUncaught
      cases hUncaught

private theorem Remembers.handsOut (h : Remembers known m) {exception : Exception}
    (hOut : m.handsOut? = some exception) :
    known.due m = some exception.raised := by
  have hHeld := h.held
  unfold Machine.handsOut? at hOut
  cases hFocus : m.focus with
  | offer region found =>
      simp only [hFocus] at hOut
      cases hOut
      simp only [Lineage.due, hFocus]
      rw [hFocus] at hHeld
      exact hHeld.symm
  | leave region outcome =>
      simp only [hFocus] at hOut
      cases outcome with
      | ok value => exact h.uncaught hOut
      | error found =>
          cases hOut
          simp only [Lineage.due, hFocus]
          rw [hFocus] at hHeld
          exact hHeld.symm
  | exec stmt =>
      simp only [hFocus] at hOut
      cases stmt with
      | current => simpa only [Lineage.due, hFocus] using h.current hOut
      | state => simpa only [Lineage.due, hFocus] using h.current hOut
      | _ => exact h.uncaught hOut
  | _ =>
      simp only [hFocus] at hOut
      exact h.uncaught hOut

end

/-! ## The law -/

/-- The records of a machine are anchored in frames that are there, and every exception
that it hands out is the one that was raised.

Every way in which an exception reaches the program or its report is one of these, so
none can show calls that it was not raised in. -/
structure Faithful {ν : Type} (known : Lineage) (m : Machine ν) : Prop where
  /-- What is remembered is one entry for each record. -/
  counts : ∀ context, m.context = some context →
    known.records.length = context.records.depth
  /-- A record means what was raised. -/
  means : ∀ context index record, m.context = some context →
    context.records.get? index = some record →
    known.records[index]? = some (record.toException context.frames).raised
  /-- The frames that a record points to are there, and they are those of the moment at
  which it was raised. -/
  anchored : ∀ context index record depth, m.context = some context →
    context.records.get? index = some record →
    record.trace = .live depth → depth ≤ context.frames.depth ∧
      ∃ raised, known.records[index]? = some raised ∧
        (context.frames.snapshot depth).map Frame.site = raised.sites
  /-- A variable holds what was raised. -/
  keeps : ∀ name, (m.exception? name).map Exception.raised = known.bindings.lookup name
  handsOut : ∀ exception, m.handsOut? = some exception →
    known.due m = some exception.raised
  reports : ∀ exception, m.uncaught? = some exception → ∃ stored : Machine ν,
    m.step = stored.uncaught exception

/-- Up to the first termination of a thread, whatever it does, the anchors of its
records never dangle, and every exception that is handed out carries the calls that it
was raised in.

No condition is put on the steps. A program may close what it opened in any order, stop
raises, and leave records behind, because frames are never taken away without a look at
the records that need them. -/
theorem faithful_of_remembered {ν : Type} {allowed : Machine ν → List Extent → Prop}
    {process : Process} {auto : Bool} {limits : Option Limits} {body : List (Stmt ν)}
    {m : Machine ν} {ledger : List Extent} {known : Lineage}
    (h : Remembered allowed (Machine.start process auto limits body)
      (Machine.start process auto limits body).opened {}
      m ledger known) : Faithful known m := by
  have hKnown := h.remembers (remembers_start process auto limits body)
  have means (context : Context) (index : Nat) (record : Record)
    (hContext : m.context = some context)
    (hRecord : context.records.get? index = some record) :
      known.records[index]? = some (record.toException context.frames).raised := by
    rw [Record.toException_eq_against]
    exact (hKnown.records context hContext).getElem?
      (Stack.getElem?_toList.trans hRecord)
  refine ⟨fun context hContext => ?_, means,
    fun context index record depth hContext hRecord hTrace => ?_, fun name => ?_,
    fun exception => hKnown.handsOut, fun exception => Machine.step_uncaught⟩
  · rw [hKnown.length_records hContext]
    exact Stack.length_toList _
  · have hMem : record ∈ context.entries.records :=
      List.mem_of_getElem? (Stack.getElem?_toList.trans hRecord)
    have hAnchored : record.reachesAbove context.frames.live.length = false :=
      (hKnown.records context hContext).anchored record hMem
    refine ⟨?_, _, means context index record hContext hRecord, ?_⟩
    · rw [context.frames.depth_eq]
      simpa [Record.reachesAbove, hTrace] using hAnchored
    · simp only [Record.toException, Record.frames, hTrace, Exception.raised]
  · rw [← hKnown.bindings, lookup_raised]
    rfl

/-- The machine, the ledger and what is remembered after so many steps that are all
allowed. -/
def retrace {ν : Type} (allowed : Machine ν → List Extent → Prop)
    [∀ m ledger, Decidable (allowed m ledger)] :
    Nat → Machine ν → List Extent → Lineage → Option (Machine ν × List Extent × Lineage)
  | 0, m, ledger, known => some (m, ledger, known)
  | count + 1, m, ledger, known =>
      if allowed m ledger ∧ m.step.poisoned = false then
        retrace allowed count m.step (m.move.apply ledger) (m.remember known)
      else
        none

private theorem Remembered.retrace {ν : Type} {allowed : Machine ν → List Extent → Prop}
    [∀ m ledger, Decidable (allowed m ledger)] {start m after : Machine ν}
    {opened ledger left : List Extent} {recalled known later : Lineage}
    (h : Remembered allowed start opened recalled m ledger known) {count : Nat}
    (hRetrace : Unwinding.retrace allowed count m ledger known =
      some (after, left, later)) :
    Remembered allowed start opened recalled after left later := by
  induction count generalizing m ledger known with
  | zero =>
      cases hRetrace
      exact h
  | succ count ih =>
      unfold Unwinding.retrace at hRetrace
      split at hRetrace
      · next hStep => exact ih (.step h hStep.1 hStep.2) hRetrace
      · cases hRetrace

/-- A run that is followed to a state that passes a test. -/
theorem Remembered.of_retrace {ν : Type} {allowed : Machine ν → List Extent → Prop}
    [∀ m ledger, Decidable (allowed m ledger)] {start : Machine ν}
    {opened : List Extent} {recalled : Lineage} (count : Nat)
    (test : Machine ν → List Extent → Lineage → Bool)
    (h : (Unwinding.retrace allowed count start opened recalled).any
      (fun state => test state.1 state.2.1 state.2.2) = true) :
    ∃ m ledger known, Remembered allowed start opened recalled m ledger known ∧
      test m ledger known = true := by
  cases hRetrace : Unwinding.retrace allowed count start opened recalled with
  | none =>
      rw [hRetrace] at h
      cases h
  | some state =>
      rw [hRetrace] at h
      exact ⟨state.1, state.2.1, state.2.2, Remembered.start.retrace hRetrace, h⟩

/-- A raise leaves a traced call and a region that sends it on, and arrives at a region
further out. -/
def raisedInCall : List (Stmt Nat) :=
  [.protect 1 ⟨"main", 1, "main"⟩ .run [.mk (.direct .illegalEscape) "e" []]
    [.protect 1 ⟨"main", 2, "main"⟩ .run []
      [.acquire "call" (.call ⟨"main", 3, "work"⟩) 1,
        .raise (.direct .illegalEscape) ⟨"main", 4, "work"⟩ []]]]

/-- The law speaks of the run of `raisedInCall`: the outer region is offered an
exception with all three calls, of which only its own is still in progress. -/
theorem faithful_of_raisedInCall :
    ∃ (m : Machine Nat) (known : Lineage) (exception : Exception) (context : Context),
      Faithful known m ∧
      m.handsOut? = some exception ∧ known.due m = some exception.raised ∧
      exception.raised.sites =
        [⟨"main", 1, "main"⟩, ⟨"main", 2, "main"⟩, ⟨"main", 3, "work"⟩] ∧
      m.context = some context ∧ context.frames.depth = 1 := by
  obtain ⟨m, ledger, known, hRemembered, hTest⟩ := Remembered.of_retrace 21
    (fun (m : Machine Nat) _ _ => (m.handsOut?.any fun (exception : Exception) =>
      decide
        (exception.raised.sites =
        [⟨"main", 1, "main"⟩, ⟨"main", 2, "main"⟩, ⟨"main", 3, "work"⟩])) &&
      m.context.any fun (context : Context) => decide (context.frames.depth = 1))
    (show (retrace Machine.InTurn 21 (.start {} true none raisedInCall)
      (Machine.start {} true none raisedInCall).opened {}).any _ = true by
        decide +kernel)
  simp only [Bool.and_eq_true, decide_eq_true_eq, Option.any_eq_true] at hTest
  obtain ⟨⟨exception, hOut, hSites⟩, context, hContext, hDepth⟩ := hTest
  have hFaithful := faithful_of_remembered hRemembered
  exact ⟨m, known, exception, context, hFaithful, hOut,
    hFaithful.handsOut exception hOut, hSites, hContext, hDepth⟩

end Unwinding
