import Unwinding.Proofs.Closing
import Unwinding.Proofs.Lineage
import Unwinding.Proofs.Nesting

/-!
# Guard bodies and the exception that is unwinding

A guard body that runs while an exception unwinds finds nothing in flight: its record is
parked under the mark of the body. The body may raise and catch, send exceptions on,
abandon regions and leave records behind, and what it leaves behind lies above what it
found. So when it returns, the record is in flight again, at the same place and with the
same meaning.

A `Flight` is the way of an exception from the step that raises it: it leaves traced
calls, regions and scopes, and is held up by guard bodies, any number of them. The runs
are those that close in turn; raises may be stopped by foreign code, save the one whose
flight it is.

## Main results

* `Shielded.restores` — what a guard body that returns leaves behind.
* `Machine.Flies.meets` — what can become of an exception on its way.
* `raise_survives` — an exception in flight is the one that was raised, and the region
  at which it arrives receives it.
-/

namespace Unwinding

open Context

/-! ## Guard bodies -/

/-- What a guard body finds: its own mark lies on top of the dispatch stack, and all the
rest is as before. -/
def Ground.guardBody (mark : Nat) (outer : List Extent) (before : Entries) :
    Ground where
  ledger := .guardBody mark :: outer
  regions := before.regions.map fun region => region.visit.id
  dispatch := .guard mark before.inFlight :: before.dispatch
  floor := before.records.length
  next := before.nextId

/-- The scope of a guard body has its number already. -/
theorem Nested.firm_guardBody {mark : Nat} {outer : List Extent} {before : Entries}
    (h : Nested .thread outer before) (hScope : outer.head? = some (.scope mark)) :
    (Ground.guardBody mark outer before).Firm := by
  obtain ⟨floor, hLayered, -⟩ := h
  refine ⟨⟨outer, .inr ⟨mark, rfl⟩⟩, fun dispatch hMem => ?_⟩
  rcases List.mem_cons.1 hMem with rfl | hUnder
  · obtain ⟨rest, rfl⟩ := List.head?_eq_some_iff.1 hScope
    exact (hLayered.of_scope Ground.firm_thread).2
  · exact hLayered.owner_lt Ground.firm_thread dispatch hUnder

private theorem nested_guardBody (mark : Nat) (outer : List Extent) (before : Entries) :
    Nested (.guardBody mark outer before) (.guardBody mark :: outer)
      { before with
        dispatch := .guard mark before.inFlight :: before.dispatch
        inFlight := none } :=
  ⟨before.records.length, .ground (Nat.le_refl _), Nat.le_refl _⟩

section

variable {ground : Ground} {ledger : List Extent} {before after : Entries} {deed : Deed}
    {known : Lineage}

/-- A region that is open above a ground gives back no record of the ground. -/
theorem Nested.floor_le_entry {visit : Visit} (h : Nested ground ledger before)
    (hFirm : ground.Firm)
    (hHead : ledger.head? = some (.region visit) ∨ ∃ phase,
      ledger.head? = some (.protecting visit phase)) :
    ground.floor ≤ visit.entry.exceptions ∧
      visit.entry.exceptions ≤ before.records.length := by
  obtain ⟨floor, hLayered, hFloor⟩ := h
  have hRises := hLayered.floor_le
  obtain hRegion | ⟨phase, hProtecting⟩ := hHead
  · obtain ⟨rest, rfl⟩ := List.head?_eq_some_iff.1 hRegion
    obtain ⟨_, _, -, -, -, -, -, -, -, rfl⟩ := hLayered.of_region hFirm
    exact ⟨hRises, hFloor⟩
  · obtain ⟨rest, rfl⟩ := List.head?_eq_some_iff.1 hProtecting
    obtain ⟨_, _, _, -, -, -, -, -, -, rfl⟩ := hLayered.of_protecting hFirm
    exact ⟨hRises, hFloor⟩

/-- A deed above a ground does not touch the records of the ground. -/
theorem Deed.Turns.take_recordsAfter (hTurns : deed.Turns before after)
    (h : Nested ground ledger before) (hFirm : ground.Firm) (hFits : deed.Fits ledger)
    (hCount : known.records.length = before.records.length) :
    (known.recordsAfter before deed).take ground.floor =
      known.records.take ground.floor := by
  have hEnough : ground.floor ≤ known.records.length := by
    obtain ⟨floor, hLayered, hFloor⟩ := h
    have hRises := hLayered.floor_le
    omega
  cases hTurns with
  | quiet isQuiet => cases deed <;> first | rfl | exact isQuiet.elim
  | leaves isFramed count =>
      obtain ⟨hLow, hLong⟩ := h.floor_le_entry hFirm hFits
      exact take_released hLow (by rw [hCount]; exact hLong)
  | abandons isFramed count =>
      obtain ⟨hLow, hLong⟩ := h.floor_le_entry hFirm (.inl hFits)
      exact take_released hLow (by rw [hCount]; exact hLong)
  | reports innermost => exact List.take_append_of_le_length hEnough
  | raises isCaught => exact List.take_append_of_le_length hEnough
  | forwards isCaught => exact List.take_append_of_le_length hEnough
  | _ => rfl

/-- What ends a guard body is that the body has returned. -/
theorem Deed.eq_unshields {mark : Nat} {outer : List Extent}
    (hMove : deed.move = .closes) (hFits : deed.Fits (.guardBody mark :: outer)) :
    deed = .unshields mark := by
  cases deed with
  | unshields found =>
      cases hFits
      rfl
  | leaves visit unwinding fate =>
      obtain hRegion | ⟨phase, hProtecting⟩ := hFits
      · cases hRegion
      · cases hProtecting
  | closes => cases hFits
  | abandons visit => cases hFits
  | closesScope found => cases hFits
  | leavesCall entry => cases hFits
  | _ => cases hMove

/-- Only a move that closes the innermost extent makes a ledger shorter. -/
theorem Move.closes_of_shorter {move : Move}
    (h : (move.apply ledger).length < ledger.length) : move = .closes := by
  cases move with
  | closes => rfl
  | stay => exact absurd h (Nat.lt_irrefl _)
  | opens extent => exact absurd h (by simp [Move.apply])
  | turns phase =>
      cases ledger with
      | nil => exact absurd h (Nat.lt_irrefl _)
      | cons top rest => cases top <;> exact absurd h (Nat.lt_irrefl _)

end

section

variable {ν : Type} {m last : Machine ν} {ground : Ground}
    {ledger outer inner : List Extent} {found : List Raised}

/-- A step that closes in turn, with something open above a ledger. -/
def Machine.Within (outer : List Extent) (m : Machine ν) (ledger : List Extent) :
    Prop :=
  m.InTurn ledger ∧ outer.length < ledger.length

instance (m : Machine ν) (outer ledger : List Extent) :
    Decidable (m.Within outer ledger) :=
  inferInstanceAs (Decidable (_ ∧ _))

/-- A guard body: the next step of a machine begins it, and with the next step of
another it has returned. What it does in between closes in turn.

The body may raise and catch, stop raises, and enter whatever it likes. Only what it
opened has to be closed in turn. -/
structure Shielded (m last : Machine ν) (outer inner : List Extent) : Prop where
  begins : ∃ mark, m.deed = .shields mark
  isTurn : m.InTurn outer
  goesOn : m.step.poisoned = false
  inside : Reaches (Machine.Within outer) m.step (m.move.apply outer) last inner
  isLast : last.Within outer inner
  returns : last.step.poisoned = false
  closes : (last.move.apply inner).length = outer.length

/-- What holds all along a guard body: the stacks are nested above what it found, and
the records that it found mean what they meant. -/
structure Guarded (ground : Ground) (found : List Raised) (m : Machine ν)
    (ledger : List Extent) : Prop where
  stands : Stands m ledger
  nested : ∃ context, m.context = some context ∧ Nested ground ledger context.entries
  keeps : ∃ known, Remembers known m ∧ known.records.take ground.floor = found

/-- One step in a guard body. No step closes the thread, which lies below the body. -/
theorem Guarded.step (h : Guarded ground found m ledger) (hFirm : ground.Firm)
    (hBody : ∃ mark, ground.ledger = .guardBody mark :: outer)
    (hWithin : m.Within outer ledger) (hGoesOn : m.step.poisoned = false)
    (hStays : outer.length < (m.move.apply ledger).length) :
    Guarded ground found m.step (m.move.apply ledger) := by
  obtain ⟨mark, hGround⟩ := hBody
  obtain ⟨context, hContext, hNested⟩ := h.nested
  obtain ⟨known, hKnown, hFound⟩ := h.keeps
  have hFits := h.stands.fits hWithin.1
  have hMove := (Machine.did_step h.stands.clear hGoesOn).move
  have hOpen : m.deed ≠ .closes := by
    intro hCloses
    rw [hCloses] at hFits
    obtain ⟨rest, rfl⟩ := List.head?_eq_some_iff.1 hFits
    obtain ⟨_, hLayered, -⟩ := hNested
    cases hGround.symm.trans hLayered.of_thread
  obtain ⟨after, hAfter, hTurns⟩ := h.stands.turns hContext hOpen hGoesOn
  refine ⟨h.stands.step hWithin.1 hGoesOn, ⟨after, hAfter, ?_⟩, _, hKnown.step hGoesOn,
    ?_⟩
  · rw [hMove]
    refine hNested.turns hFirm hTurns hFits fun found hDeed hLedger => ?_
    rw [hMove, hDeed, hLedger, hGround] at hStays
    exact absurd hStays (Nat.lt_irrefl _)
  · rw [records_remember known hContext,
      hTurns.take_recordsAfter hNested hFirm hFits (hKnown.length_records hContext)]
    exact hFound

/-- All along a guard body. -/
theorem Guarded.reaches {start : Machine ν} {opened : List Extent}
    (h : Reaches (Machine.Within outer) start opened m ledger)
    (hStart : Guarded ground found start opened) (hFirm : ground.Firm)
    (hBody : ∃ mark, ground.ledger = .guardBody mark :: outer)
    (hOpen : outer.length < ledger.length) :
    Guarded ground found m ledger := by
  induction h with
  | start => exact hStart
  | step before isAllowed goesOn ih =>
      exact (ih isAllowed.2).step hFirm hBody isAllowed goesOn hOpen

/-- A guard body begins on what it finds. -/
theorem guarded_of_shields {mark : Nat} {known : Lineage} {before : Context}
    (hStands : Stands m outer) (hKnown : Remembers known m)
    (hContext : m.context = some before) (hTurn : m.InTurn outer)
    (hDeed : m.deed = .shields mark) (hGoesOn : m.step.poisoned = false) :
    Guarded (.guardBody mark outer before.entries) known.records m.step
      (m.move.apply outer) := by
  have hMove : m.move.apply outer = .guardBody mark :: outer := by
    rw [(Machine.did_step hStands.clear hGoesOn).move, hDeed]
    rfl
  have hOpen : m.deed ≠ .closes := by
    intro hCloses
    cases hDeed.symm.trans hCloses
  obtain ⟨after, hAfter, hTurns⟩ := hStands.turns hContext hOpen hGoesOn
  refine ⟨hStands.step hTurn hGoesOn, ⟨after, hAfter, ?_⟩, _, hKnown.step hGoesOn, ?_⟩
  · rw [hDeed] at hTurns
    rw [hMove]
    generalize after.entries = entries at hTurns
    cases hTurns with
    | quiet isQuiet => exact isQuiet.elim
    | shields => exact nested_guardBody mark outer before.entries
  · rw [records_remember known hContext, hDeed]
    exact List.take_of_length_le (Nat.le_of_eq (hKnown.length_records hContext))

/-- A guard body ends on what it found, with the step that takes its mark away. -/
theorem Guarded.ends {mark : Nat} {before : Entries}
    (h : Guarded (.guardBody mark outer before) found last inner)
    (hLast : last.Within outer inner) (hReturns : last.step.poisoned = false)
    (hCloses : (last.move.apply inner).length = outer.length) :
    inner = .guardBody mark :: outer ∧ last.move.apply inner = outer ∧
      last.deed = .unshields mark := by
  have hMove : last.move = .closes :=
    Move.closes_of_shorter (by rw [hCloses]; exact hLast.2)
  obtain rfl : inner = .guardBody mark :: outer := by
    obtain ⟨_, _, _, hLayered, -⟩ := h.nested
    obtain ⟨above, hInner⟩ := hLayered.suffix
    rw [hMove, hInner] at hCloses
    cases above with
    | nil => exact hInner
    | cons top rest =>
        have hLonger : (rest ++ .guardBody mark :: outer).length = outer.length :=
          hCloses
        rw [List.length_append, List.length_cons] at hLonger
        omega
  refine ⟨rfl, by rw [hMove]; rfl, ?_⟩
  have hDeed : last.deed.move = .closes :=
    (Machine.did_step h.stands.clear hReturns).move.symm.trans hMove
  exact Deed.eq_unshields hDeed (h.stands.fits hLast.1)

/-- What a guard body has left behind when it has returned: what was in flight is in
flight again, the dispatch stack is what it was, and the records that were there mean
what they meant. -/
structure Returned (known : Lineage) (before : Context) (last : Machine ν)
    (outer : List Extent) : Prop where
  stands : Stands last.step outer
  idle : last.step.inUse = false
  inFlight : ∃ after, last.step.context = some after ∧ after.inFlight =
    before.inFlight ∧
    after.dispatch.live = before.dispatch.live
  keeps : ∃ later, Remembers later last.step ∧ later.records.take known.records.length =
    known.records

/-- A guard body that returns leaves everything below it as it was, whatever it does. -/
theorem Shielded.restores {known : Lineage} {before : Context}
    (h : Shielded m last outer inner) (hStands : Stands m outer)
    (hKnown : Remembers known m) (hContext : m.context = some before) :
    last.move.apply inner = outer ∧ Returned known before last outer := by
  obtain ⟨mark, hDeed⟩ := h.begins
  have hScope : outer.head? = some (.scope mark) := by
    have hFits := hStands.fits h.isTurn
    rw [hDeed] at hFits
    exact hFits
  have hFirm := (hStands.nested before hContext).firm_guardBody hScope
  have hStart := guarded_of_shields hStands hKnown hContext h.isTurn hDeed h.goesOn
  have hGuarded := Guarded.reaches h.inside hStart hFirm ⟨mark, rfl⟩ h.isLast.2
  obtain ⟨rfl, hOuter, hEnds⟩ := hGuarded.ends h.isLast h.returns h.closes
  obtain ⟨context, hLast, _, hLayered, -⟩ := hGuarded.nested
  obtain ⟨-, hDispatch, -⟩ := hLayered.of_ground
  obtain ⟨later, hLater, hFound⟩ := hGuarded.keeps
  have hOpen : last.deed ≠ .closes := by
    intro hCloses
    cases hEnds.symm.trans hCloses
  obtain ⟨after, hAfter, hTurns⟩ := hGuarded.stands.turns hLast hOpen h.returns
  rw [hEnds] at hTurns
  refine ⟨hOuter, ?_, ?_, ⟨after, hAfter, ?_⟩, _, hLater.step h.returns, ?_⟩
  · rw [← hOuter]
    exact hGuarded.stands.step h.isLast.1 h.returns
  · refine (Machine.did_step hGuarded.stands.clear h.returns).idle fun hQuiet => ?_
    rw [hEnds] at hQuiet
    exact hQuiet.elim
  · generalize hEntries : after.entries = entries at hTurns
    cases hTurns with
    | quiet isQuiet => exact isQuiet.elim
    | unshields marked =>
        cases marked.symm.trans hDispatch
        exact ⟨congrArg Entries.inFlight hEntries, congrArg Entries.dispatch hEntries⟩
  · rw [records_remember later hLast, hEnds, hKnown.length_records hContext]
    exact hFound

end

/-! ## Flights -/

/-- A deed that lets a raise go on. -/
def Deed.LetsPass : Deed → Prop
  | .rests => True
  | .leaves _ unwinding _ => unwinding = true
  | .leavesCall _ => True
  | .closesScope _ => True
  | _ => False

instance (deed : Deed) : Decidable deed.LetsPass :=
  decidable_of_iff
    ((match deed with
      | .rests => true
      | .leaves _ unwinding _ => unwinding
      | .leavesCall _ => true
      | .closesScope _ => true
      | _ => false) = true) (by cases deed <;> simp [Deed.LetsPass])

instance (deed : Deed) : Decidable (∃ mark, deed = .shields mark) :=
  decidable_of_iff
    ((match deed with
      | .shields _ => true
      | _ => false) = true) (by cases deed <;> simp)

section

variable {ν : Type} {m last start : Machine ν} {ledger inner opened : List Extent}
    {raised : Raised} {known : Lineage}

/-- A raise is on its way: it passes code that waits, or is held up by a handle that it
drops. -/
inductive Machine.Flies (m : Machine ν) : Prop
  | passes (hFocus : m.focus = .unwind .raise)
  | drops {handle : Handle ν} {below : List (Resumption ν)}
      (hFocus : m.focus = .drop handle)
      (hControl : m.control = .unwinding .raise :: below)
  | leavesScope {scope : Leaving ν} {below : List (Resumption ν)}
      (hFocus : m.focus = .leaveScope scope)
      (hControl : m.control = .unwinding .raise :: below)
  | goesOn {below : List (Resumption ν)} (hFocus : m.focus = .next)
      (hControl : m.control = .unwinding .raise :: below)

private theorem Machine.Flies.not_raise (h : m.Flies) (kind : KindRef) (site : Site)
    (message : List (Piece ν)) :
    m.focus ≠ .exec (.raise kind site message) := by
  intro hRaise
  cases h with
  | passes hFocus => cases hFocus.symm.trans hRaise
  | drops hFocus hControl => cases hFocus.symm.trans hRaise
  | leavesScope hFocus hControl => cases hFocus.symm.trans hRaise
  | goesOn hFocus hControl => cases hFocus.symm.trans hRaise

/-- What a raise meets on its way. -/
inductive Deed.IsMet : Deed → Prop
  | passes {deed : Deed} (letsPass : deed.LetsPass) : IsMet deed
  /-- A guard body holds it up. -/
  | holds {mark : Nat} : IsMet (.shields mark)
  /-- It arrives at the region that catches it. -/
  | arrives {visit : Visit} {exception : Exception} : IsMet (.catches visit exception)
  /-- Foreign code stops it. -/
  | stops : IsMet .stops
  /-- An explicit region takes it for a return. -/
  | abandons {visit : Visit} : IsMet (.abandons visit)
  /-- The thread is over. -/
  | ends : IsMet .closes

private theorem Machine.isMet_closing (m : Machine ν) : m.closing.IsMet := by
  unfold closing
  split
  · exact .passes trivial
  · exact .ends

/-- A raise on its way goes on, unless a guard body begins, it is caught or stopped, a
region is abandoned, or the thread is over. -/
theorem Machine.Flies.meets (h : m.Flies) : m.deed.IsMet := by
  cases h with
  | passes hFocus =>
      simp only [deed, hFocus]
      split
      · unfold answering
        split
        · exact .passes trivial
        · split
          · exact .arrives
          · exact .passes trivial
      · exact .passes rfl
      · exact .stops
      · exact m.isMet_closing
      · exact .passes trivial
  | @drops handle below hFocus hControl =>
      simp only [deed, hFocus]
      cases handle with
      | thread => exact m.isMet_closing
      | region visit inUnwinding =>
          dsimp only
          split
          · exact .passes rfl
          · exact .abandons
      | call entry inUnwinding => exact .passes trivial
      | guards scope => exact .passes trivial
  | leavesScope hFocus hControl =>
      simp only [deed, hFocus]
      split
      · exact .passes trivial
      · split
        · exact .holds
        · exact .passes trivial
  | goesOn hFocus hControl =>
      simp only [deed, hFocus]
      exact .passes trivial

instance (m : Machine ν) : Decidable m.Flies :=
  decidable_of_iff
    ((match m.focus, m.control with
      | .unwind .raise, _ => true
      | .drop _, .unwinding .raise :: _ => true
      | .leaveScope _, .unwinding .raise :: _ => true
      | .next, .unwinding .raise :: _ => true
      | _, _ => false) = true) (by
    constructor
    · intro h
      split at h
      · next hFocus => exact .passes hFocus
      · next hFocus hControl => exact .drops hFocus hControl
      · next hFocus hControl => exact .leavesScope hFocus hControl
      · next hFocus hControl => exact .goesOn hFocus hControl
      · cases h
    · intro h
      cases h with
      | passes hFocus => rw [hFocus]
      | drops hFocus hControl => rw [hFocus, hControl]
      | leavesScope hFocus hControl => rw [hFocus, hControl]
      | goesOn hFocus hControl => rw [hFocus, hControl])

/-- A step of the flight of an exception. -/
def Machine.Passes (m : Machine ν) (ledger : List Extent) : Prop :=
  m.InTurn ledger ∧ m.Flies ∧ m.deed.LetsPass

instance (m : Machine ν) (ledger : List Extent) : Decidable (m.Passes ledger) :=
  inferInstanceAs (Decidable (_ ∧ _ ∧ _))

/-- The flight of an exception: a raise passes code that waits and leaves what that code
has open, and guard bodies hold it up.

It begins with the step after the raise and ends where a region is about to catch, or
where something stops the raise. -/
inductive Flight (start : Machine ν) (opened : List Extent) :
    Machine ν → List Extent → Prop
  | start : Flight start opened start opened
  | passes {m : Machine ν} {ledger : List Extent}
      (before : Flight start opened m ledger) (isPassed : m.Passes ledger)
      (goesOn : m.step.poisoned = false) :
        Flight start opened m.step (m.move.apply ledger)
  | holds {m last : Machine ν} {ledger inner : List Extent}
      (before : Flight start opened m ledger)
      (body : Shielded m last ledger inner) :
        Flight start opened last.step (last.move.apply inner)

/-- What a deed raises: an exception that is new, or one that is sent on. -/
def Deed.raises? (entries : Entries) : Deed → Option Raised
  | .raises kind message origin => some ⟨kind, message, origin, entries.sites⟩
  | .forwards exception => some exception.raised
  | _ => none

/-- What the next step of a machine raises. -/
def Machine.raises? (m : Machine ν) : Option Raised :=
  m.deed.raises? (m.entries?.getD .empty)

/-- The record in flight means what was raised. -/
def Machine.Sends (m : Machine ν) (raised : Raised) : Prop :=
  ∃ context index record, m.context = some context ∧ context.inFlight = some index ∧
    context.records.get? index = some record ∧
      (record.toException context.frames).raised = raised

/-- What holds all along a flight.

While a guard body runs the last field fails, since the record is parked then. It is
taken up again with the step in which the body has returned. -/
structure Airborne (raised : Raised) (known : Lineage) (m : Machine ν)
    (ledger : List Extent) : Prop where
  stands : Stands m ledger
  remembers : Remembers known m
  idle : m.inUse = false
  inFlight : ∃ context index, m.context = some context ∧ context.inFlight = some index ∧
    known.records[index]? = some raised

/-- All along a flight, the record in flight means the exception that was raised. -/
theorem Airborne.sends (h : Airborne raised known m ledger) : m.Sends raised := by
  obtain ⟨context, index, hContext, hIndex, hRaised⟩ := h.inFlight
  rw [← (h.remembers.records context hContext).means, List.getElem?_map] at hRaised
  obtain ⟨record, hRecord, hMeans⟩ := Option.map_eq_some_iff.1 hRaised
  refine ⟨context, index, record, hContext, hIndex,
    Stack.getElem?_toList.symm.trans hRecord, ?_⟩
  rw [Record.toException_eq_against]
  exact hMeans

section

variable {before after : Entries} {deed : Deed}

/-- A raise puts the newest record in flight. -/
theorem Deed.Turns.inFlight_of_raises (h : deed.Turns before after)
    (hRaises : deed.raises? before = some raised)
    (hCount : known.records.length = before.records.length)
    (hHeld : ∀ exception, deed.spends? = some exception →
      known.held = some exception.raised) :
    ∃ index, after.inFlight = some index ∧ (known.recordsAfter before deed)[index]? =
      some raised := by
  cases h with
  | quiet isQuiet => cases deed <;> first | exact isQuiet.elim | cases hRaises
  | raises isCaught =>
      refine ⟨before.records.length, rfl, ?_⟩
      rw [← hRaises, ← hCount]
      exact List.getElem?_concat_length
  | @forwards _ exception isCaught =>
      refine ⟨before.records.length, rfl, ?_⟩
      simp only [Lineage.recordsAfter, hHeld exception rfl]
      rw [← hRaises, ← hCount]
      exact List.getElem?_concat_length
  | _ => cases hRaises

/-- A deed that lets a raise pass keeps its record in flight. -/
theorem Deed.Turns.inFlight_of_letsPass (h : deed.Turns before after)
    (hPass : deed.LetsPass) {index : Nat} (hFlight : before.inFlight = some index)
    (hRaised : known.records[index]? = some raised) :
    ∃ place, after.inFlight = some place ∧ (known.recordsAfter before deed)[place]? =
      some raised := by
  cases h with
  | quiet isQuiet =>
      cases deed <;> first | exact ⟨index, hFlight, hRaised⟩ | exact isQuiet.elim
  | leavesCall isFramed count => exact ⟨index, hFlight, hRaised⟩
  | @leaves _ visit unwinding fate frame frames isFramed count =>
      obtain rfl : unwinding = true := hPass
      simp only [Entries.leave, Lineage.recordsAfter, hFlight]
      exact getElem?_released hRaised
  | _ => exact hPass.elim

end

/-- A deed that raises is no quiet one, and is done on a context. -/
theorem Deed.not_quiet_of_raises {entries : Entries} {deed : Deed}
    (h : deed.raises? entries = some raised) :
    ¬ deed.IsQuiet := by
  intro hQuiet
  cases deed <;> first | exact hQuiet | cases h

private theorem Machine.context_of_raises {after : Option Entries}
    (hActs : m.deed.Acts m.entries? after) (hRaises : m.raises? = some raised) :
    ∃ context, m.context = some context := by
  cases hContext : m.context with
  | some context => exact ⟨context, rfl⟩
  | none =>
      have hNone : m.entries? = none := by rw [entries?, hContext]; rfl
      unfold raises? at hRaises
      rw [hNone] at hActs hRaises
      generalize m.deed = deed at hActs hRaises
      cases hActs with
      | quiet isQuiet => exact absurd isQuiet (Deed.not_quiet_of_raises hRaises)
      | opens => cases hRaises
      | closes => cases hRaises

/-- An exception that is raised is in flight. -/
theorem airborne_of_raises (hStands : Stands m ledger) (hKnown : Remembers known m)
    (hTurn : m.InTurn ledger) (hRaises : m.raises? = some raised)
    (hGoesOn : m.step.poisoned = false) :
    Airborne raised (m.remember known) m.step (m.move.apply ledger) := by
  have hDid := Machine.did_step hStands.clear hGoesOn
  obtain ⟨context, hContext⟩ := Machine.context_of_raises hDid.acts hRaises
  rw [Machine.raises?, Machine.entries?_some hContext] at hRaises
  have hOpen : m.deed ≠ .closes :=
    fun hCloses => by rw [hCloses] at hRaises; cases hRaises
  obtain ⟨after, hAfter, hTurns⟩ := hStands.turns hContext hOpen hGoesOn
  refine ⟨hStands.step hTurn hGoesOn, hKnown.step hGoesOn, hDid.idle fun hQuiet => ?_,
    ?_⟩
  · exact absurd hQuiet (Deed.not_quiet_of_raises hRaises)
  · obtain ⟨index, hIndex, hRaised⟩ :=
      hTurns.inFlight_of_raises hRaises (hKnown.length_records hContext)
        fun _ hSpends => hKnown.spent hSpends
    exact ⟨after, index, hAfter, hIndex, by
      rw [records_remember known hContext]; exact hRaised⟩

/-- What is in flight stays so while an unwinding is let pass. -/
theorem Airborne.goesOn (h : Airborne raised known m ledger) (hTurn : m.InTurn ledger)
    (hNew : ∀ kind site message, m.focus ≠ .exec (.raise kind site message))
    (hPass : m.deed.LetsPass) (hGoesOn : m.step.poisoned = false) :
    Airborne raised (m.remember known) m.step (m.move.apply ledger) := by
  obtain ⟨context, index, hContext, hIndex, hRaised⟩ := h.inFlight
  have hOpen : m.deed ≠ .closes := fun hCloses => by rw [hCloses] at hPass; exact hPass
  obtain ⟨after, hAfter, hTurns⟩ := h.stands.turns hContext hOpen hGoesOn
  refine ⟨h.stands.step hTurn hGoesOn, h.remembers.step hGoesOn, ?_, ?_⟩
  · exact (Machine.did_step h.stands.clear hGoesOn).idle fun _ => ⟨h.idle, hNew⟩
  · obtain ⟨place, hPlace, hKept⟩ := hTurns.inFlight_of_letsPass hPass hIndex hRaised
    exact ⟨after, place, hAfter, hPlace, by
      rw [records_remember known hContext]; exact hKept⟩

/-- A step of a flight. -/
theorem Airborne.passes (h : Airborne raised known m ledger) (hPasses : m.Passes ledger)
    (hGoesOn : m.step.poisoned = false) :
    Airborne raised (m.remember known) m.step (m.move.apply ledger) :=
  h.goesOn hPasses.1 hPasses.2.1.not_raise hPasses.2.2 hGoesOn

/-- A guard body gives back what was in flight. -/
theorem Airborne.holds (h : Airborne raised known m ledger)
    (hBody : Shielded m last ledger inner) :
    ∃ later, Airborne raised later last.step (last.move.apply inner) := by
  obtain ⟨before, index, hContext, hIndex, hRaised⟩ := h.inFlight
  obtain ⟨hOuter, hReturned⟩ := hBody.restores h.stands h.remembers hContext
  obtain ⟨after, hAfter, hSame, -⟩ := hReturned.inFlight
  obtain ⟨later, hLater, hKept⟩ := hReturned.keeps
  obtain ⟨hLow, -⟩ := List.getElem?_eq_some_iff.1 hRaised
  refine ⟨later, hOuter ▸ hReturned.stands, hLater, hReturned.idle, after, index,
    hAfter, hSame.trans hIndex, ?_⟩
  have hSamePlace := congrArg (fun records => records[index]?) hKept
  rw [List.getElem?_take_of_lt hLow] at hSamePlace
  exact hSamePlace.trans hRaised

private theorem Flight.airborne (h : Flight start opened m ledger)
    (hStart : Airborne raised known start opened) :
    ∃ later, Airborne raised later m ledger := by
  induction h with
  | start => exact ⟨known, hStart⟩
  | passes before isPassed goesOn ih =>
      obtain ⟨later, hLater⟩ := ih
      exact ⟨_, hLater.passes isPassed goesOn⟩
  | holds before body ih =>
      obtain ⟨later, hLater⟩ := ih
      exact hLater.holds body

end

/-! ## Arrival -/

section

variable {context : Context} {visit : Visit} {region : Region} {outer : List Region}

/-- The innermost region can be moved. -/
theorem answers_setState {state : RegionState}
    (hRegions : context.regions.live = region :: outer)
    (hId : region.visit.id = visit.id) :
    Ends (setState visit state context)
      (fun _ after => after.inFlight = context.inFlight ∧ after.records =
        context.records ∧ after.frames = context.frames)
      fun _ => False := by
  refine ends_bind (ends_get ?_)
  rw [Stack.top?_of_live hRegions]
  simp only [if_pos hId]
  exact ends_bind (ends_note (ends_modify ⟨rfl, rfl, rfl⟩))

/-- The innermost region can catch an exception whose record is there. -/
theorem answers_catchInFlight {index : Nat} {record : Record}
    (hRegions : context.regions.live = region :: outer)
    (hId : region.visit.id = visit.id) (hIndex : context.inFlight = some index)
    (hRecord : context.records.get? index = some record) :
    Ends (catchInFlight visit context)
      (fun exception after => exception = record.toException context.frames ∧
        after.records = context.records ∧ after.frames = context.frames)
      fun _ => False := by
  refine ends_bind
    ((answers_setState hRegions hId).imp fun _ moved hMoved => ends_bind (ends_get ?_))
  obtain ⟨hSame, hRecords, hFrames⟩ := hMoved
  rw [hSame, hIndex]
  have hFound : moved.records.get? index = some record := by
    rw [hRecords]; exact hRecord
  refine ends_bind (ends_modify (ends_bind (ends_get ?_)))
  simp only [hFound]
  refine ends_bind (ends_get (ends_pure ?_))
  exact ⟨by rw [hFrames], hRecords, hFrames⟩

end

section

variable {ν : Type} {m : Machine ν} {ledger : List Extent} {raised : Raised}
    {known : Lineage} {region : Protected ν}
  {below : List (Resumption ν)}

/-- A region of a run that closes in turn, whose body runs, is the innermost one when an
exception arrives there. -/
theorem Stands.innermost {context : Context} (h : Stands m ledger)
    (hTurn : m.InTurn ledger) (hFocus : m.focus = .unwind .raise)
    (hControl : m.control = .body region :: below)
    (hContext : m.context = some context) :
    ∃ innermost outer, context.regions.live = innermost :: outer ∧ innermost.visit.id =
      region.visit.id := by
  obtain ⟨rest, rfl⟩ := List.head?_eq_some_iff.1
    (hTurn.closing (.protecting region.visit .body)
      (by simp only [Machine.closing?, hFocus, hControl]))
  obtain ⟨_, hLayered, -⟩ := h.nested context hContext
  obtain ⟨_, _, _, hIds, -⟩ := hLayered.of_protecting Ground.firm_thread
  obtain ⟨innermost, outer, hRegions, hId, -⟩ := List.map_eq_cons_iff.1 hIds
  exact ⟨innermost, outer, hRegions, hId⟩

/-- An exception is the meaning of a record that is there. -/
def Machine.Records (m : Machine ν) (exception : Exception) : Prop :=
  ∃ context index record, m.context = some context ∧
    context.records.get? index = some record ∧ record.toException context.frames =
      exception

/-- The region at which an exception in flight arrives receives it, with its record. -/
theorem Airborne.receives (h : Airborne raised known m ledger) (hTurn : m.InTurn ledger)
    (hFocus : m.focus = .unwind .raise) (hControl : m.control = .body region :: below) :
    m.step.poisoned = false ∧ m.step.inUse = false ∧ m.step.control = below ∧
      ∃ exception, m.step.focus = .offer region exception ∧ exception.raised = raised ∧
        m.step.Records exception := by
  obtain ⟨context, index, record, hContext, hIndex, hRecord, hMeans⟩ := h.sends
  obtain ⟨innermost, outer, hRegions, hId⟩ :=
    h.stands.innermost hTurn hFocus hControl hContext
  have hStep : m.step = ({ m with control := below } : Machine ν).caught.perform
      (catchInFlight region.visit) fun m exception =>
        m.goto (.offer region exception) := by
    simp only [Machine.step, hFocus, Machine.propagate, hControl]
  obtain ⟨exception, after, -, ⟨rfl, hRecords, hFrames⟩, hNext⟩ :=
    Machine.perform_answers (m := ({ m with control := below } : Machine ν).caught)
      (fun m exception => m.goto (.offer region exception)) hContext h.idle
      (answers_catchInFlight hRegions hId hIndex hRecord)
  rw [hNext] at hStep
  rw [hStep]
  refine ⟨h.stands.clear, h.idle, rfl, _, rfl, hMeans, { after with journal := [] },
    index, record, rfl, ?_, ?_⟩
  · rw [← hRecord, ← hRecords]
  · rw [← hFrames]

/-- The region at which a raise arrives with the next step. -/
def Machine.arrives? (m : Machine ν) : Option (Protected ν × List (Resumption ν)) :=
  match m.focus, m.control with
  | .unwind .raise, .body region :: below => some (region, below)
  | _, _ => none

private theorem Machine.of_arrives? (h : m.arrives? = some (region, below)) :
    m.focus = .unwind .raise ∧ m.control = .body region :: below := by
  unfold arrives? at h
  split at h
  · next hFocus hControl =>
      cases h
      exact ⟨hFocus, hControl⟩
  · cases h

end

/-! ## The law -/

/-- In a run that closes in turn, an exception that is raised and unwinds through
handles and guard bodies stays the same. Whatever a guard body does before it returns,
the record in flight is afterwards the one that was in flight before, and it means what
was raised; and the region at which the exception arrives is offered exactly that.

Nothing is asked of the guard bodies but that they close in turn and return. They may
have foreign code stop their own raises, in which case records are left behind above the
one that is parked. -/
theorem raise_survives {ν : Type} {process : Process} {auto : Bool}
    {limits : Option Limits} {body : List (Stmt ν)} {raising m : Machine ν}
    {opened ledger : List Extent} {raised : Raised}
    (h : Reaches Machine.InTurn (.start process auto limits body)
      (Machine.start process auto limits body).opened
      raising opened)
    (hTurn : raising.InTurn opened) (hRaises : raising.raises? = some raised)
    (hGoesOn : raising.step.poisoned = false)
    (hFlight : Flight raising.step (raising.move.apply opened) m ledger) :
    m.Sends raised ∧
    (∀ last inner, Shielded m last ledger inner →
      last.step.Sends raised ∧ last.step.context.map Context.inFlight =
        m.context.map Context.inFlight) ∧
    ∀ region below, m.InTurn ledger → m.focus = .unwind .raise →
      m.control = .body region :: below →
      m.step.poisoned = false ∧ ∃ exception, m.step.focus = .offer region exception ∧
        exception.raised = raised := by
  obtain ⟨recalled, hRemembered⟩ := h.remembered {}
  have hStands := stands_of_reaches h (stands_start process auto limits body)
  have hStart :=
    airborne_of_raises hStands
    (hRemembered.remembers (remembers_start process auto limits body)) hTurn hRaises
    hGoesOn
  obtain ⟨known, hAirborne⟩ := hFlight.airborne hStart
  refine ⟨hAirborne.sends, fun last inner hBody => ?_,
    fun region below hHere hFocus hControl => ?_⟩
  · obtain ⟨later, hLater⟩ := hAirborne.holds hBody
    obtain ⟨context, _, hContext, -⟩ := hAirborne.inFlight
    obtain ⟨after, hAfter, hSame, -⟩ :=
      (hBody.restores hAirborne.stands hAirborne.remembers hContext).2.inFlight
    refine ⟨hLater.sends, ?_⟩
    rw [hAfter, hContext, Option.map_some, Option.map_some, hSame]
  · obtain ⟨hClear, -, -, exception, hOffer, hSame, -⟩ :=
      hAirborne.receives hHere hFocus hControl
    exact ⟨hClear, exception, hOffer, hSame⟩

/-- A flight goes on for as long as the raise is let pass. -/
theorem Flight.passesOn {ν : Type} {start m after : Machine ν}
    {opened ledger left : List Extent} (h : Flight start opened m ledger)
    (hPasses : Reaches Machine.Passes m ledger after left) :
    Flight start opened after left := by
  induction hPasses with
  | start => exact h
  | step before isAllowed goesOn ih => exact ih.passes isAllowed goesOn

/-- While a raise unwinds, a guard body has foreign code stop a raise, and catches
another one. -/
def heldUp : List (Stmt Nat) :=
  [.protect 1 ⟨"main", 1, "main"⟩ .run catchAll
    [.acquire "guard" (.guards ⟨"main", 2, "main"⟩) 1,
      .guard "guard" .always
        [.attempt [.raise (.direct .illegalEscape) ⟨"main", 3, "undo"⟩ []] none,
          .protect 1 ⟨"main", 4, "undo"⟩ .run catchAll
            [.raise (.direct .illegalEscape) ⟨"main", 5, "undo"⟩ []]],
      .raise (.direct .illegalEscape) ⟨"main", 6, "main"⟩ []]]

/-- The law speaks of the outer raise of `heldUp`: it is in flight again when the guard
body has returned, and its region is offered it. -/
theorem raise_survives_heldUp :
    ∃ (raised : Raised) (held last m : Machine Nat) (outer inner : List Extent)
      (region : Protected Nat)
      (exception : Exception), raised.origin = ⟨"main", 6, "main"⟩ ∧
        Shielded held last outer inner ∧ last.step.Sends raised ∧
      m.step.focus = .offer region exception ∧ exception.raised = raised := by
  obtain ⟨raising, opened, hReaches, hTest⟩ := Reaches.of_follow 11
    (fun (raising : Machine Nat) (opened : List Extent) =>
      decide (raising.InTurn opened) && raising.raises?.any
        (fun (raised : Raised) => raised.origin = ⟨"main", 6, "main"⟩) &&
      !raising.step.poisoned &&
      (follow Machine.Passes 2 raising.step (raising.move.apply opened)).any
        fun (held, outer) =>
        decide (∃ mark, held.deed = .shields mark) && decide (held.InTurn outer) &&
          !held.step.poisoned &&
        (follow (Machine.Within outer) 22 held.step (held.move.apply outer)).any
          fun (last, inner) =>
          decide (last.Within outer inner) && !last.step.poisoned &&
          decide ((last.move.apply inner).length = outer.length) &&
          (follow Machine.Passes 3 last.step (last.move.apply inner)).any
            fun (m, ledger) =>
            decide (m.InTurn ledger) && m.arrives?.isSome)
    (show (follow Machine.InTurn 11 (.start {} true none heldUp)
      (Machine.start {} true none heldUp).opened).any _ = true by decide +kernel)
  simp only [Bool.and_eq_true, decide_eq_true_eq, Bool.not_eq_true', Option.any_eq_true,
    Option.isSome_iff_exists, Prod.exists] at hTest
  obtain ⟨⟨⟨hTurn, raised, hRaises, hOrigin⟩, hGoesOn⟩, held, outer, hPassed,
      ⟨⟨hBegins, hBody⟩, hEnters⟩, last, inner, hInside, ⟨⟨hLast, hReturns⟩, hCloses⟩,
      m, ledger, hRest, hArrives, region, below, hRegion⟩ := hTest
  have hShielded : Shielded held last outer inner :=
    ⟨hBegins, hBody, hEnters, Reaches.start.follow hInside, hLast, hReturns, hCloses⟩
  have hHeld : Flight raising.step (raising.move.apply opened) held outer :=
    Flight.start.passesOn (Reaches.start.follow hPassed)
  have hFlight : Flight raising.step (raising.move.apply opened) m ledger :=
    (hHeld.holds hShielded).passesOn (Reaches.start.follow hRest)
  obtain ⟨hFocus, hControl⟩ := Machine.of_arrives? hRegion
  obtain ⟨-, hBodies, -⟩ := raise_survives hReaches hTurn hRaises hGoesOn hHeld
  obtain ⟨-, -, hReceives⟩ := raise_survives hReaches hTurn hRaises hGoesOn hFlight
  obtain ⟨-, exception, hOffer, hSame⟩ :=
    hReceives region below hArrives hFocus hControl
  exact ⟨raised, held, last, m, outer, inner, region, exception, hOrigin, hShielded,
    (hBodies last inner hShielded).1, hOffer, hSame⟩

/-- While a raise unwinds, a guard body enters a protected region and opens an explicit
one in it, and in that a guard scope; then it raises. -/
def overtaken : List (Stmt Nat) :=
  [.protect 1 ⟨"main", 1, "main"⟩ .run catchAll
    [.acquire "guard" (.guards ⟨"main", 2, "main"⟩) 1,
      .guard "guard" .always
        [.protect 1 ⟨"main", 3, "undo"⟩ .run catchAll
          [.acquire "inner" (.region ⟨"main", 4, "undo"⟩) 1,
            .acquire "scope" (.guards ⟨"main", 5, "undo"⟩) 1,
            .guard "scope" .always [.say "undone"],
            .raise (.direct .illegalEscape) ⟨"main", 6, "undo"⟩ []]],
      .raise (.direct .illegalEscape) ⟨"main", 7, "main"⟩ []]]

/-- An exception may be lost on its way, though all guard bodies return: the explicit
region takes the raise that leaves it for a return, and releases its record. -/
theorem overtaken_fails :
    ∃ m ledger,
      Reaches Machine.Orderly (.start {} true none overtaken)
        (Machine.start {} true none overtaken).opened m ledger ∧
        m.Orderly ledger ∧ m.step.poisoned = true ∧
        m.step.failure? = some (.corrupted (.noRecord ⟨"main", 3, "undo"⟩)) :=
  Reaches.fails_of_follow 45 (by decide +kernel)

end Unwinding
