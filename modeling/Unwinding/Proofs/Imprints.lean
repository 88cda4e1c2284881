import Unwinding.Proofs.Lineage
import Unwinding.Proofs.Termination

/-!
# What an annotation reaches

A record of an exception points into the live frames until one of the calls that it was
raised in ends; then it gets a copy. `Lineage` says that it always names the calls of
the raise. What is written on those calls is another matter: an annotation that is made
after the raise, while they are all still in progress, goes to a frame that the record
points to if that is the innermost one. This module follows what an exception said when
it was raised, word for word, and notes when such an annotation was made.

An `Imprint` is the exception of that moment, with its frames and their annotations.
`Imprints` keeps one for every record, for every variable and for the exception in hand,
as a `Lineage` keeps what was raised.

## Main results

* `Deed.Turns.bears` — what a deed does to the imprints of the records.
* `immune_of_imprints` — an exception that is handed out is the one that was raised, up
  to the annotation of its innermost call, and that is the one of the raise unless it
  was retouched.
* `annotated_in_flight` — a guard body retouches the exception that unwinds its scope.
-/

namespace Unwinding

open Context

/-! ## Imprints -/

/-- An exception as it was raised, and what has become of its calls since.

Frames go away from the top, so an exception can be touched only while all the calls of
its raise are there. The first flag is what says so. -/
structure Imprint where
  exception : Exception
  /-- Whether none of the calls has ended that it was raised in. -/
  stands : Bool
  /-- Whether an annotation was made on the innermost of them while none had ended. -/
  retouched : Bool

namespace Imprint

/-- An exception that has just been raised: none of its calls has ended, and none was
annotated since. -/
def fresh (exception : Exception) : Imprint :=
  ⟨exception, true, false⟩

/-- All calls but so many end. -/
def cut (depth : Nat) (imprint : Imprint) : Imprint :=
  { imprint with
    stands := imprint.stands && decide (imprint.exception.frames.length ≤ depth) }

/-- The innermost of so many calls is annotated. -/
def touch (depth : Nat) (imprint : Imprint) : Imprint :=
  { imprint with
    retouched :=
      imprint.retouched || imprint.stands &&
      decide (imprint.exception.frames.length = depth) }

/-- The exception is copied, with whatever is written on its calls. -/
def copied (imprint : Imprint) : Imprint :=
  { imprint with stands := false }

/-- What an exception can have become: only the annotation of its innermost call can
differ from that of the raise, and only if it was retouched. -/
structure Allows (imprint : Imprint) (exception : Exception) : Prop where
  raised : exception.raised = imprint.exception.raised
  outer : exception.frames.dropLast = imprint.exception.frames.dropLast
  same : imprint.retouched = false → exception = imprint.exception

private theorem allows_fresh (exception : Exception) :
    (fresh exception).Allows exception :=
  ⟨rfl, rfl, fun _ => rfl⟩

private theorem Allows.copied {imprint : Imprint} {exception : Exception}
    (h : imprint.Allows exception) :
    imprint.copied.Allows exception :=
  ⟨h.raised, h.outer, h.same⟩

/-- A record means an exception that its imprint allows, and points to calls only if
they are all in progress. -/
structure Of (imprint : Imprint) (record : Record) (frames : List Frame) : Prop where
  allows : imprint.Allows (record.against frames)
  anchored : record.reachesAbove frames.length = false
  stands : ∀ depth, record.trace = .live depth → imprint.stands = true ∧
    imprint.exception.frames.length = depth

namespace Of

variable {imprint : Imprint} {record : Record} {frames : List Frame}

private theorem cons (h : imprint.Of record frames) (frame : Frame) :
    imprint.Of record (frame :: frames) where
  allows := by
    rw [Record.against_cons h.anchored]
    exact h.allows
  anchored := Record.reachesAbove_mono h.anchored (Nat.le_succ _)
  stands := h.stands

private theorem cut {above below : List Frame} {depth : Nat}
    (h : imprint.Of record frames) (hFrames : frames = above ++ below)
    (hCount : below.length = depth) :
    (imprint.cut depth).Of (record.settle depth frames) below := by
  subst hFrames hCount
  refine ⟨?_, Record.reachesAbove_settle _ _ _, fun depth hTrace => ?_⟩
  · rw [Record.against_settle]
    exact ⟨h.allows.raised, h.allows.outer, h.allows.same⟩
  · cases hReaches : record.reachesAbove below.length with
    | true =>
        rw [Record.settle, if_pos hReaches] at hTrace
        cases hTrace
    | false =>
        rw [Record.settle_of_not_reachesAbove hReaches] at hTrace
        obtain ⟨hStands, hDepth⟩ := h.stands depth hTrace
        have hLow : imprint.exception.frames.length ≤ below.length := by
          simp only [Record.reachesAbove, hTrace, decide_eq_false_iff_not, Nat.not_lt]
            at hReaches
          omega
        exact ⟨by
          simp only [Imprint.cut, hStands, hLow, decide_true, Bool.and_true], hDepth⟩

/-- An annotation changes what a record means only if it points to the innermost
call. -/
theorem against_modifyHead_of_lt {depth : Nat} {f : Frame → Frame}
    (hTrace : record.trace = .live depth) (hLow : depth < frames.length) :
    record.against (frames.modifyHead f) = record.against frames := by
  unfold Record.against
  rw [hTrace, List.length_modifyHead]
  have hDrop : (frames.modifyHead f).drop (frames.length - depth) =
      frames.drop (frames.length - depth) := by
    cases frames with
    | nil => rfl
    | cons top rest =>
        have hSome : (top :: rest).length - depth = rest.length - depth + 1 := by
          rw [List.length_cons] at hLow ⊢
          omega
        rw [hSome, List.modifyHead_cons, List.drop_succ_cons, List.drop_succ_cons]
  dsimp only
  rw [hDrop]

private theorem dropLast_against_modifyHead {f : Frame → Frame} :
    (record.against (frames.modifyHead f)).frames.dropLast =
    (record.against frames).frames.dropLast := by
  cases hTrace : record.trace with
  | owned copied => simp only [Record.against, hTrace]
  | live depth =>
      by_cases hLow : depth < frames.length
      · rw [against_modifyHead_of_lt hTrace hLow]
      · have hAll : frames.length - depth = 0 := by omega
        simp only [Record.against, hTrace, List.length_modifyHead, hAll, List.drop_zero]
        cases frames with
        | nil => rfl
        | cons top rest =>
            simp only [List.modifyHead_cons, List.reverse_cons, List.dropLast_concat]

private theorem touch (h : imprint.Of record frames) {f : Frame → Frame}
    (hSite : ∀ frame, (f frame).site = frame.site) :
    (imprint.touch frames.length).Of record (frames.modifyHead f) := by
  refine ⟨⟨?_, ?_, fun hSame => ?_⟩, ?_, h.stands⟩
  · rw [record.raised_against_modifyHead hSite]
    exact h.allows.raised
  · rw [dropLast_against_modifyHead]
    exact h.allows.outer
  · obtain ⟨hBefore, hElse⟩ := Bool.or_eq_false_iff.1 hSame
    refine Eq.trans ?_ (h.allows.same hBefore)
    cases hTrace : record.trace with
    | owned copied => simp only [Record.against, hTrace]
    | live depth =>
        obtain ⟨hStands, hDepth⟩ := h.stands depth hTrace
        have hAnchored := h.anchored
        simp only [Record.reachesAbove, hTrace, decide_eq_false_iff_not, Nat.not_lt]
          at hAnchored
        have hNot : imprint.exception.frames.length ≠ frames.length := by
          simpa only [hStands, Bool.true_and, decide_eq_false_iff_not] using hElse
        exact against_modifyHead_of_lt hTrace (by omega)
  · rw [List.length_modifyHead]
    exact h.anchored

/-- A record that points to all calls in progress means the exception with exactly
these. -/
theorem of_raise (kind : Kind) (message : String) (origin : Site)
    (frames : List Frame) :
    (fresh ⟨kind, message, origin, frames.reverse⟩).Of
      ⟨kind, message, origin, .live frames.length⟩ frames := by
  have hMeans : (⟨kind, message, origin, .live frames.length⟩ : Record).against frames =
      ⟨kind, message, origin, frames.reverse⟩ := by
    simp only [Record.against, Nat.sub_self, List.drop_zero]
  refine ⟨hMeans ▸ allows_fresh _, ?_, fun depth hTrace => ⟨rfl, ?_⟩⟩
  · simp only [Record.reachesAbove, Nat.lt_irrefl, decide_false]
  · cases hTrace
    exact List.length_reverse

end Of

end Imprint

/-! ## Along a run -/

/-- The imprint of every exception that a thread has: the records, oldest first, the
variables, and the one in hand. -/
structure Imprints where
  records : List Imprint := []
  bindings : String → Option Imprint := fun _ => none
  held : Option Imprint := none

namespace Imprints

/-- The exception that is raised with these calls in progress. -/
def raised (entries : Entries) (kind : Kind) (message : String) (origin : Site) :
    Imprint :=
  .fresh ⟨kind, message, origin, entries.frames.reverse⟩

/-- The records after a deed: calls end, or the innermost one is annotated, and a raise
makes a new imprint. -/
def recordsAfter (known : Imprints) (entries : Entries) : Deed → List Imprint
  | .opens => []
  | .closes => []
  | .annotates _ => known.records.map (.touch entries.frames.length)
  | .raises kind message origin => known.records ++ [raised entries kind message origin]
  | .reports _ exception =>
      known.records ++
        [raised entries exception.kind exception.message exception.origin]
  | .forwards _ => known.records ++ known.held.toList
  | .leaves visit unwinding _ =>
      (released entries.inFlight visit.entry.exceptions unwinding known.records).map
        (.cut visit.entry.frames)
  | .abandons visit =>
      (released entries.inFlight visit.entry.exceptions false known.records).map
        (.cut visit.entry.frames)
  | .leavesCall entry => known.records.map (.cut entry.frames)
  | _ => known.records

/-- What is in hand after a deed. It is a copy. -/
def heldAfter (known : Imprints) (entries : Entries) : Deed → Option Imprint
  | .declines _ => known.held
  | .leaves _ _ (.sentOn _) => known.held
  | .recalls name => known.bindings name
  | .catches _ _ =>
      (entries.inFlight.bind fun index => known.records[index]?).map .copied
  | .reports _ exception =>
      some (raised entries exception.kind exception.message exception.origin).copied
  | _ => none

/-- The variables after a deed. -/
def bindingsAfter (known : Imprints) : Deed → String → Option Imprint
  | .leaves _ _ (.kept _ name) =>
    fun other => if other = name then known.held else known.bindings other
  | .handles _ _ name =>
      fun other => if other = name then known.held else known.bindings other
  | _ => known.bindings

end Imprints

namespace Machine

variable {ν : Type}

/-- The imprints after the next step of a machine. -/
def imprint (m : Machine ν) (known : Imprints) : Imprints where
  records := known.recordsAfter (m.entries?.getD .empty) m.deed
  bindings := known.bindingsAfter m.deed
  held := known.heldAfter (m.entries?.getD .empty) m.deed

/-- The imprints after so many steps of a thread that has just been started. -/
def imprints (start : Machine ν) : Nat → Imprints
  | 0 => {}
  | count + 1 => (steps count start).imprint (start.imprints count)

end Machine

/-- Each record means what its imprint allows. -/
def Bears (records : List Record) (frames : List Frame) (known : List Imprint) : Prop :=
  List.Forall₂ (fun imprint record => imprint.Of record frames) known records

section

variable {α β : Type} {R : α → β → Prop} {these : List α} {those : List β}

private theorem forall₂_getElem? (h : List.Forall₂ R these those) (index : Nat) :
    Option.Rel R these[index]? those[index]? := by
  induction h generalizing index with
  | nil => exact .none
  | cons hHead _ ih =>
      cases index with
      | zero => exact .some hHead
      | succ index => exact ih index

/-- Of two lists that go together, entry by entry, the same is released. -/
theorem forall₂_released (h : List.Forall₂ R these those) (inFlight : Option Nat)
    (depth : Nat) (keep : Bool) :
    List.Forall₂ R (released inFlight depth keep these)
      (released inFlight depth keep those) := by
  have hTake := List.forall₂_take depth h
  unfold released
  cases inFlight with
  | none => exact hTake
  | some index =>
      dsimp only
      split
      · have hKept := forall₂_getElem? h index
        generalize these[index]? = this at hKept ⊢
        generalize those[index]? = that at hKept ⊢
        refine List.rel_append hTake ?_
        cases hKept with
        | none => exact .nil
        | some hRel => exact .cons hRel .nil
      · exact hTake

end

namespace Bears

variable {records : List Record} {frames : List Frame} {known : List Imprint}

/-- What happens to each record happens to its imprint. -/
theorem map {after : List Frame} {f : Imprint → Imprint} {g : Record → Record}
    (h : Bears records frames known)
    (hEach : ∀ imprint record, imprint.Of record frames →
      (f imprint).Of (g record) after) :
    Bears (records.map g) after (known.map f) :=
  List.forall₂_map_left_iff.2 (List.forall₂_map_right_iff.2 (List.Forall₂.imp hEach h))

/-- What happens to the frames alone. -/
theorem reframe {after : List Frame} {f : Imprint → Imprint}
    (h : Bears records frames known)
    (hEach : ∀ imprint record, imprint.Of record frames → (f imprint).Of record after) :
    Bears records after (known.map f) :=
  List.forall₂_map_left_iff.2 (List.Forall₂.imp hEach h)

private theorem append {imprint : Imprint} {record : Record}
    (h : Bears records frames known) (hLast : imprint.Of record frames) :
    Bears (records ++ [record]) frames (known ++ [imprint]) :=
  List.rel_append h (.cons hLast .nil)

end Bears

/-- What a deed does to the imprints of the records. -/
theorem Deed.Turns.bears {deed : Deed} {before after : Entries} {known : Imprints}
    (h : deed.Turns before after)
    (hBears : Bears before.records before.frames known.records)
    (hHeld : ∀ exception, deed = .forwards exception → ∃ imprint,
      known.held = some imprint ∧ imprint.Allows exception) :
    Bears after.records after.frames (known.recordsAfter before deed) := by
  cases h with
  | quiet isQuiet => cases deed <;> first | exact hBears | exact isQuiet.elim
  | annotates => exact hBears.reframe fun _ _ h => h.touch fun _ => rfl
  | enters number measured => exact List.Forall₂.imp (fun _ _ h => h.cons _) hBears
  | entersCall measured => exact List.Forall₂.imp (fun _ _ h => h.cons _) hBears
  | @leaves _ visit unwinding fate frame frames isFramed count =>
      have hFrames : frames = before.frames.tail := by rw [isFramed]; rfl
      have hSplit : before.frames = [frame] ++ frames := isFramed
      have hReleased : Bears _ before.frames _ :=
        forall₂_released hBears before.inFlight visit.entry.exceptions unwinding
      rw [hFrames] at hSplit count
      exact hReleased.map fun _ _ h => h.cut hSplit count
  | @abandons _ visit above below isFramed count =>
      have hReleased : Bears _ before.frames _ :=
        forall₂_released hBears before.inFlight visit.entry.exceptions false
      exact hReleased.map fun _ _ h => h.cut isFramed count
  | leavesCall isFramed count => exact hBears.map fun _ _ h => h.cut isFramed count
  | catches innermost inFlight found => exact hBears
  | handles innermost marked own => exact hBears
  | reports innermost => exact hBears.append (.of_raise _ _ _ _)
  | raises isCaught => exact hBears.append (.of_raise _ _ _ _)
  | @forwards _ exception isCaught =>
      obtain ⟨imprint, hSome, hAllows⟩ := hHeld exception rfl
      change Bears _ _ (known.records ++ known.held.toList)
      rw [hSome]
      exact hBears.append ⟨hAllows, rfl, fun _ hTrace => by cases hTrace⟩
  | opensScope number => exact hBears
  | shields => exact hBears
  | unshields marked => exact hBears

/-- A variable keeps what it holds when another one takes something. -/
theorem lookup_assigned_of_ne {α : Type} {name other : String} {value : α}
    {bindings : List (String × α)} (h : other ≠ name) :
    (assigned name value bindings).lookup other = bindings.lookup other := by
  have hKept : (bindings.filter fun binding => binding.1 != name).lookup other =
      bindings.lookup other := by
    induction bindings with
    | nil => rfl
    | cons binding rest ih =>
        obtain ⟨found, bound⟩ := binding
        by_cases hFound : found = name
        · simp [hFound, List.lookup_cons, beq_false_of_ne h, ih]
        · simp [hFound, List.lookup_cons, ih]
  rw [assigned, List.lookup_cons, beq_false_of_ne h]
  exact hKept

/-- The imprints are true of a state: records, variables and the exception in hand are
what they allow. -/
structure Imprinted {ν : Type} (known : Imprints) (m : Machine ν) : Prop where
  clear : m.poisoned = false
  closed : m.context = none → known.records = []
  records : ∀ context, m.context = some context →
    Bears context.entries.records context.entries.frames known.records
  held : Option.Rel Imprint.Allows known.held m.focus.carried?
  bindings : ∀ name, Option.Rel Imprint.Allows (known.bindings name) (m.exception? name)

namespace Imprinted

variable {ν : Type} {m : Machine ν} {known : Imprints}

/-- What a deed spends was in hand. -/
theorem spent (h : Imprinted known m) {exception : Exception}
    (hSpends : m.deed.spends? = some exception) :
    ∃ imprint, known.held = some imprint ∧ imprint.Allows exception := by
  have hHeld := h.held
  rw [Machine.carried_of_spends hSpends] at hHeld
  generalize known.held = held at hHeld
  cases hHeld with
  | some hAllows => exact ⟨_, rfl, hAllows⟩

/-- The records after a step. -/
theorem recordsAfter (h : Imprinted known m) {deed : Deed} {after : Option Entries}
    (hActs : deed.Acts m.entries? after) (hDeed : m.deed = deed) :
    (after = none → known.recordsAfter (m.entries?.getD .empty) deed = []) ∧
      ∀ entries, after = some entries → Bears entries.records entries.frames
        (known.recordsAfter (m.entries?.getD .empty) deed) := by
  generalize hBefore : m.entries? = before at hActs
  cases hActs with
  | @turns _ before next hTurns =>
      obtain ⟨context, hContext, rfl⟩ := Machine.exists_of_entries? hBefore
      refine ⟨fun hNone => (nomatch hNone), fun entries hSome => ?_⟩
      cases hSome
      refine hTurns.bears (h.records context hContext) fun exception hForwards => ?_
      exact h.spent (by rw [hDeed, hForwards]; rfl)
  | quiet isQuiet =>
      refine ⟨fun _ => ?_, fun _ hSome => nomatch hSome⟩
      have hNone := h.closed (Option.map_eq_none_iff.1 hBefore)
      cases deed <;> first | exact hNone | exact isQuiet.elim
  | opens =>
      refine ⟨fun hNone => (nomatch hNone), fun entries hSome => ?_⟩
      cases hSome
      exact .nil
  | closes => exact ⟨fun _ => rfl, fun _ hSome => nomatch hSome⟩

/-- What is in hand after a step. -/
theorem handed (h : Imprinted known m) {deed : Deed} {after : Option Entries}
    (hActs : deed.Acts m.entries? after) (hDeed : m.deed = deed) :
    Option.Rel Imprint.Allows (known.heldAfter (m.entries?.getD .empty) deed)
      (deed.hand m.bindings) := by
  have kept {exception : Exception} (hSpends : m.deed.spends? = some exception) :
      Option.Rel Imprint.Allows known.held (some exception) := by
    obtain ⟨imprint, hHeld, hAllows⟩ := h.spent hSpends
    exact hHeld ▸ .some hAllows
  cases deed with
  | declines exception => exact kept (by rw [hDeed]; rfl)
  | leaves visit unwinding fate =>
      cases fate with
      | sentOn exception => exact kept (by rw [hDeed]; rfl)
      | nothing => exact .none
      | kept exception name => exact .none
  | recalls name => exact h.bindings name
  | catches visit exception =>
      generalize hBefore : m.entries? = before at hActs ⊢
      cases hActs with
      | @turns _ before next hTurns =>
          obtain ⟨context, hContext, rfl⟩ := Machine.exists_of_entries? hBefore
          cases hTurns with
          | quiet isQuiet => exact isQuiet.elim
          | @catches _ _ _ _ index record innermost inFlight found =>
              have hRel := forall₂_getElem? (h.records context hContext) index
              change Option.Rel Imprint.Allows
                ((context.entries.inFlight.bind fun index => known.records[index]?).map
                .copied)
                (some (record.against context.entries.frames))
              rw [inFlight, Option.bind_some]
              rw [found] at hRel
              generalize known.records[index]? = imprint at hRel ⊢
              cases hRel with
              | some hOf => exact .some hOf.allows.copied
      | quiet isQuiet => exact isQuiet.elim
  | reports visit exception =>
      generalize m.entries? = before at hActs ⊢
      cases hActs with
      | turns hTurns =>
          cases hTurns with
          | quiet isQuiet => exact isQuiet.elim
          | reports innermost => exact .some (Imprint.Of.of_raise _ _ _ _).allows.copied
      | quiet isQuiet => exact isQuiet.elim
  | _ => exact .none

/-- A variable that takes what is in hand. -/
theorem bound (h : Imprinted known m) {exception : Exception} {name : String}
    (hSpends : m.deed.spends? = some exception) (other : String) :
    Option.Rel Imprint.Allows
      (if other = name then known.held else known.bindings other)
      ((assigned name exception m.bindings).lookup other) := by
  by_cases hName : other = name
  · obtain ⟨imprint, hHeld, hAllows⟩ := h.spent hSpends
    rw [if_pos hName, hHeld, assigned, List.lookup_cons, hName, beq_self_eq_true]
    exact .some hAllows
  · rw [if_neg hName, lookup_assigned_of_ne hName]
    exact h.bindings other

/-- One step of a run. -/
theorem step (h : Imprinted known m) (hGoesOn : m.step.poisoned = false) :
    Imprinted (m.imprint known) m.step := by
  have hDid := Machine.did_step h.clear hGoesOn
  obtain ⟨hNone, hSome⟩ := h.recordsAfter hDid.acts rfl
  refine ⟨hGoesOn, fun hContext => ?_, fun context hContext => ?_, ?_, fun name => ?_⟩
  · exact hNone (by rw [Machine.entries?, hContext]; rfl)
  · exact hSome _ (Machine.entries?_some hContext)
  · rw [hDid.hand]
    exact h.handed hDid.acts rfl
  · rw [Machine.exception?, hDid.bindings]
    change Option.Rel _ (known.bindingsAfter m.deed name) _
    cases hDeed : m.deed with
    | leaves visit unwinding fate =>
        cases fate with
        | kept exception name => exact h.bound (by rw [hDeed]; rfl) _
        | nothing => exact h.bindings name
        | sentOn exception => exact h.bindings name
    | handles visit exception name => exact h.bound (by rw [hDeed]; rfl) _
    | _ => exact h.bindings name

private theorem start (process : Process) (auto : Bool) (limits : Option Limits)
    (body : List (Stmt ν)) :
    Imprinted {} (Machine.start process auto limits body) := by
  obtain ⟨hBindings, hHand, hEntries⟩ := Machine.start_fresh process auto limits body
  refine ⟨(sound_start False process auto limits body).clear, fun _ => rfl,
    fun context hContext => ?_, ?_, fun name => ?_⟩
  · rw [hEntries context hContext]
    exact .nil
  · rw [hHand]
    exact .none
  · rw [Machine.exception?, hBindings]
    exact .none

/-- The imprints stay true up to the first termination of the thread. -/
theorem steps (process : Process) (auto : Bool) (limits : Option Limits)
    (body : List (Stmt ν)) (count : Nat)
    (hGoesOn : ∀ earlier ≤ count,
      (Machine.steps earlier (.start process auto limits body)).poisoned = false) :
    Imprinted ((Machine.start process auto limits body).imprints count)
      (Machine.steps count (.start process auto limits body)) := by
  induction count with
  | zero => exact start process auto limits body
  | succ count ih =>
      have hLast := hGoesOn (count + 1) (Nat.le_refl _)
      rw [Machine.steps_succ] at hLast ⊢
      exact (ih fun earlier hEarlier =>
        hGoesOn earlier (Nat.le_succ_of_le hEarlier)).step hLast

/-! ### What is handed out -/

/-- The newest record is what a thread is asked for. -/
theorem current (h : Imprinted known m) {exception : Exception}
    (hCurrent : m.current? = some exception) :
    ∃ imprint, known.records.getLast? = some imprint ∧ imprint.Allows exception := by
  unfold Machine.current? Machine.ask at hCurrent
  cases hUse : m.inUse with
  | true =>
      rw [hUse] at hCurrent
      cases hCurrent
  | false =>
      rw [hUse] at hCurrent
      cases hContext : m.context with
      | none =>
          rw [hContext] at hCurrent
          cases hCurrent
      | some context =>
          rw [hContext] at hCurrent
          change context.current? = some exception at hCurrent
          obtain ⟨record, hTop, rfl⟩ := Option.map_eq_some_iff.1 hCurrent
          have hLast : context.entries.records.getLast? = some record := by
            rw [← hTop]
            exact List.getLast?_reverse
          have hBears := h.records context hContext
          have hRel := forall₂_getElem? hBears (known.records.length - 1)
          rw [← List.getLast?_eq_getElem?, hBears.length_eq,
            ← List.getLast?_eq_getElem?, hLast] at hRel
          generalize known.records.getLast? = imprint at hRel ⊢
          cases hRel with
          | some hOf =>
              rw [Record.toException_eq_against]
              exact ⟨_, rfl, hOf.allows⟩

end Imprinted

/-- The imprint of the exception that the next step of a machine hands out. -/
def Imprints.due {ν : Type} (known : Imprints) (m : Machine ν) : Option Imprint :=
  match m.focus with
  | .exec .current => known.records.getLast?
  | .exec .state => known.records.getLast?
  | .write raising pieces =>
      (raising.finished? pieces).map fun raising =>
        Imprints.raised (m.entries?.getD .empty) raising.kind (m.messageOf raising)
          raising.site
  | _ => known.held

namespace Imprinted

variable {ν : Type} {m : Machine ν} {known : Imprints}

/-- What nothing catches is in hand, or is being raised. -/
theorem uncaught (h : Imprinted known m) {exception : Exception}
    (hUncaught : m.uncaught? = some exception) :
    ∃ imprint, known.due m = some imprint ∧ imprint.Allows exception := by
  unfold Machine.uncaught? at hUncaught
  have hHeld := h.held
  cases hFocus : m.focus with
  | forward found =>
      simp only [hFocus] at hUncaught
      obtain ⟨context, after, -, -, hOk⟩ := Machine.handedBack?_eq_some hUncaught
      rw [hFocus] at hHeld
      obtain ⟨hNone, -⟩ | hSame := effect_forward.of_ok hOk
      · cases hNone
      · cases hSame
        simp only [Imprints.due, hFocus]
        generalize known.held = held at hHeld
        cases hHeld with
        | some hAllows => exact ⟨_, rfl, hAllows⟩
  | write raising pieces =>
      simp only [hFocus] at hUncaught
      cases hFinished : raising.finished? pieces with
      | none =>
          rw [hFinished] at hUncaught
          cases hUncaught
      | some finished =>
          rw [hFinished] at hUncaught
          obtain ⟨context, after, -, hContext, hOk⟩ :=
            Machine.handedBack?_eq_some hUncaught
          obtain ⟨hNone, -⟩ | ⟨found, hSame, hMeans⟩ := effect_raise.of_ok hOk
          · cases hNone
          · cases hSame
            have hEntries : m.entries? = some context.entries :=
              Machine.entries?_some hContext
            simp only [Imprints.due, hFocus, hFinished, hEntries, Option.getD_some,
              Option.map_some]
            refine ⟨_, rfl, ?_⟩
            rw [hMeans]
            exact (Imprint.Of.of_raise _ _ _ _).allows
  | _ =>
      simp only [hFocus] at hUncaught
      cases hUncaught

private theorem handsOut (h : Imprinted known m) {exception : Exception}
    (hOut : m.handsOut? = some exception) :
    ∃ imprint, known.due m = some imprint ∧ imprint.Allows exception := by
  have hHeld := h.held
  have carried (hCarried : m.focus.carried? = some exception)
    (hDue : known.due m = known.held) :
      ∃ imprint, known.due m = some imprint ∧ imprint.Allows exception := by
    rw [hCarried] at hHeld
    rw [hDue]
    generalize known.held = held at hHeld
    cases hHeld with
    | some hAllows => exact ⟨_, rfl, hAllows⟩
  unfold Machine.handsOut? at hOut
  cases hFocus : m.focus with
  | offer region found =>
      simp only [hFocus] at hOut
      cases hOut
      exact carried (by rw [hFocus]; rfl) (by simp only [Imprints.due, hFocus])
  | leave region outcome =>
      simp only [hFocus] at hOut
      cases outcome with
      | ok value => exact h.uncaught hOut
      | error found =>
          cases hOut
          exact carried (by rw [hFocus]; rfl) (by simp only [Imprints.due, hFocus])
  | exec stmt =>
      simp only [hFocus] at hOut
      cases stmt with
      | current => simpa only [Imprints.due, hFocus] using h.current hOut
      | state => simpa only [Imprints.due, hFocus] using h.current hOut
      | _ => exact h.uncaught hOut
  | _ =>
      simp only [hFocus] at hOut
      exact h.uncaught hOut

end Imprinted

/-! ## The law -/

/-- Up to the first termination of a thread, every exception that it hands out, or holds
in a variable, is the one that was raised, up to the annotation of the innermost call;
and it is the one that was raised, word for word, unless that call was annotated while
all calls of the raise were still in progress and the exception was not yet copied.

An exception is copied when it is caught, so what a handler holds is out of reach of
later annotations. The window is between the raise and the catch, and only the innermost
call of the raise is in it. -/
theorem immune_of_imprints {ν : Type} (process : Process) (auto : Bool)
    (limits : Option Limits) (body : List (Stmt ν)) (count : Nat)
    (hGoesOn : ∀ earlier ≤ count,
      (Machine.steps earlier (.start process auto limits body)).poisoned = false) :
    (∀ exception, (Machine.steps count (.start process auto limits body)).handsOut? =
      some exception →
      ∃ imprint, ((Machine.start process auto limits body).imprints count).due
          (Machine.steps count (.start process auto limits body)) = some imprint ∧
            imprint.Allows exception) ∧
      ∀ name,
        Option.Rel Imprint.Allows
        (((Machine.start process auto limits body).imprints count).bindings name)
        ((Machine.steps count (.start process auto limits body)).exception? name) :=
  have h := Imprinted.steps process auto limits body count hGoesOn
  ⟨fun _ hOut => h.handsOut hOut, h.bindings⟩

/-- A guard body is run by a raise, and annotates a call of its own. -/
def annotatesBeside : List (Stmt Nat) :=
  [.protect 1 ⟨"main", 1, "main"⟩ .run [.mk (.direct .illegalEscape) "e" []]
    [.annotate "early", .acquire "scope" (.guards ⟨"main", 2, "main"⟩) 1,
      .guard "scope" .always [.acquire "call" (.call ⟨"main", 3, "work"⟩) 1,
        .annotate "late"],
      .raise (.direct .illegalEscape) ⟨"main", 4, "main"⟩ []]]

/-- The law speaks of the run of `annotatesBeside`: the region is offered what was
raised, word for word. -/
theorem immune_of_annotatesBeside :
    ∃ (count : Nat) (imprint : Imprint) (exception : Exception),
      (∀ earlier ≤ count,
        (Machine.steps earlier (.start {} true none annotatesBeside)).poisoned =
        false) ∧
        (Machine.steps count (.start {} true none annotatesBeside)).handsOut? =
          some exception ∧
        ((Machine.start {} true none annotatesBeside).imprints count).due
          (Machine.steps count (.start {} true none annotatesBeside)) = some imprint ∧
        imprint.retouched = false ∧ exception = imprint.exception ∧
        exception.frames = [⟨⟨"main", 1, "main"⟩, "early"⟩] := by
  have hClear : ∀ earlier ≤ 33,
      (Machine.steps earlier (.start {} true none annotatesBeside)).poisoned =
      false := by
    decide +kernel
  have hFrames :
    (Machine.steps 33 (.start {} true none annotatesBeside)).handsOut?.map
      Exception.frames =
      some [⟨⟨"main", 1, "main"⟩, "early"⟩] := by decide +kernel
  have hUntouched : (((Machine.start {} true none annotatesBeside).imprints 33).due
      (Machine.steps 33 (.start {} true none annotatesBeside))).all
        (fun imprint => !imprint.retouched) = true := by
    decide +kernel
  obtain ⟨exception, hOut, hSame⟩ := Option.map_eq_some_iff.1 hFrames
  obtain ⟨imprint, hDue, hAllows⟩ :=
    (immune_of_imprints {} true none annotatesBeside 33 hClear).1 exception hOut
  rw [hDue] at hUntouched
  have hRetouched : imprint.retouched = false := by simpa using hUntouched
  exact ⟨33, imprint, exception, hClear, hOut, hDue, hRetouched,
    hAllows.same hRetouched, hSame⟩

/-- A guard body is run by a raise, and annotates the call that the raise is in. -/
def annotatesLate : List (Stmt Nat) :=
  [.protect 1 ⟨"main", 1, "main"⟩ .run [.mk (.direct .illegalEscape) "e" []]
    [.acquire "scope" (.guards ⟨"main", 2, "main"⟩) 1,
      .guard "scope" .always [.annotate "late"],
      .raise (.direct .illegalEscape) ⟨"main", 3, "main"⟩ []]]

/-- An exception that is on its way takes on an annotation that was not there when it
was raised.

The annotation is made by a guard body, which runs between the raise and the catch while
the call of the raise is still the innermost one. -/
theorem annotated_in_flight :
    ∃ (count : Nat) (imprint : Imprint) (exception : Exception),
      (∀ earlier ≤ count,
        (Machine.steps earlier (.start {} true none annotatesLate)).poisoned = false) ∧
        (Machine.steps count (.start {} true none annotatesLate)).handsOut? =
          some exception ∧
        ((Machine.start {} true none annotatesLate).imprints count).due
          (Machine.steps count (.start {} true none annotatesLate)) = some imprint ∧
        imprint.exception.frames = [⟨⟨"main", 1, "main"⟩, ""⟩] ∧ exception.frames =
          [⟨⟨"main", 1, "main"⟩, "late"⟩] := by
  have hClear : ∀ earlier ≤ 24,
      (Machine.steps earlier (.start {} true none annotatesLate)).poisoned = false := by
    decide +kernel
  have hFrames :
    (Machine.steps 24 (.start {} true none annotatesLate)).handsOut?.map
      Exception.frames =
      some [⟨⟨"main", 1, "main"⟩, "late"⟩] := by decide +kernel
  have hRaised : (((Machine.start {} true none annotatesLate).imprints 24).due
      (Machine.steps 24 (.start {} true none annotatesLate))).map
        (fun imprint => imprint.exception.frames) =
      some [⟨⟨"main", 1, "main"⟩, ""⟩] := by decide +kernel
  obtain ⟨exception, hOut, hLate⟩ := Option.map_eq_some_iff.1 hFrames
  obtain ⟨imprint, hDue, hEarly⟩ := Option.map_eq_some_iff.1 hRaised
  exact ⟨24, imprint, exception, hClear, hOut, hDue, hEarly, hLate⟩

end Unwinding
