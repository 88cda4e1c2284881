import Unwinding.Proofs.Destructors
import Unwinding.Proofs.Panics

/-!
# Regions that run while an exception is on its way

The destructor of a value of the program runs with the exception still in flight that
unwinds. If it enters a protected region, the region finds the record of that exception
on its stack, and the one slot for a record in flight taken. A guard body that runs in
the region parks what it finds there and puts it back; the region itself does not. So
the exception gets through unharmed just when nothing is raised, sent on or reported in
the region outside of guard bodies.

That the record in flight stays there is followed on the stacks alone: what was in
flight, and what guard bodies parked, when the region was entered stays at the bottom of
what is in flight and parked now (`Undisturbed`). The one thing that could take it away
is a region that catches it, and such a region would have to be older than the raise
(`Footing.catches`).

## Main results

* `Undisturbed.turns` - what a deed in the region leaves as it was.
* `interlude_restores` - the record in flight is there again, unchanged, once the region
  has been left.
-/

namespace Unwinding

open Context

variable {ν : Type}

/-! ## Destructors and what is known of a run -/

section

variable {m : Machine ν} {ledger : List Extent} {payload : Payload}
    {body : List (Stmt ν)}

private theorem Upright.destruct (h : Upright m ledger) :
    Upright (m.destruct payload body) ledger :=
  ⟨h.stands.destruct, h.aligned⟩

private theorem Remembers.destruct {known : Lineage} (h : Remembers known m)
    (hUnwinds : m.focus = .unwind payload) :
    Remembers known (m.destruct payload body) := by
  have hHeld := h.held
  rw [hUnwinds] at hHeld
  exact ⟨h.clear, h.closed, h.records, hHeld, h.bindings⟩

/-- A raise that waits for a destructor will go on to the same regions. -/
private theorem Footing.destruct (h : Footing m ledger)
    (hUnwinds : m.focus = .unwind payload) :
    Footing (m.destruct payload body) ledger := by
  have hJoints : (m.destruct payload body).joints = .other :: .unwinding payload ::
      m.joints := by
    simp only [Machine.joints, hUnwinds]
    rfl
  refine ⟨h.stands.destruct, ?_, fun context hContext => ?_⟩
  · rw [hJoints]
    exact h.woven
  · have hFooted := h.footed context hContext
    rw [hUnwinds] at hFooted
    rw [hJoints]
    change Footed m.joints (false || decide (payload = .raise)) _ _
    rw [Bool.false_or, ← isRaise_unwinds]
    exact hFooted

end

/-! ## What is there when a region is entered -/

private theorem frames_heights_le (above below : List Extent) :
    (heights below).frames ≤ (heights (above ++ below)).frames := by
  induction above with
  | nil => exact Nat.le_refl _
  | cons extent above ih =>
      refine Nat.le_trans ih ?_
      cases extent <;> simp [heights, Extent.onTop]

private theorem Recalled.of_append {above below : List Extent}
    (h : Recalled (above ++ below)) :
    Recalled below := by
  induction above with
  | nil => exact h
  | cons extent above ih => exact ih h.2

/-- What lies above a region remembers at least the frames that the region found. -/
theorem Recalled.frames_le {above outer : List Extent} {visit : Visit} {phase : Phase}
    {extent : Extent} {entry : Depths}
    (h : Recalled (above ++ .protecting visit phase :: outer))
    (hHead : (above ++ .protecting visit phase :: outer).head? = some extent)
    (hEntry : extent.entry? = some entry) : visit.entry.frames ≤ entry.frames := by
  cases above with
  | nil =>
      cases hHead
      cases hEntry
      exact Nat.le_refl _
  | cons top rest =>
      cases hHead
      have hRegion : visit.entry.heights = heights outer := h.2.of_append.1 _ rfl
      have hTop : entry.heights = heights (rest ++ .protecting visit phase :: outer) :=
        h.1 entry hEntry
      have hBelow := frames_heights_le rest (.protecting visit phase :: outer)
      have hFound : visit.entry.frames = (heights outer).frames :=
        congrArg Heights.frames hRegion
      have hNow :
          entry.frames = (heights (rest ++ .protecting visit phase :: outer)).frames :=
        congrArg Heights.frames hTop
      have hOwn : (heights (.protecting visit phase :: outer)).frames =
          (heights outer).frames + 1 := rfl
      omega

/-- A deed that sends an exception on its way: one is raised, or sent on, or an escape
is reported as one. -/
def Deed.launches : Deed → Bool
  | .raises _ _ _ => true
  | .forwards _ => true
  | .reports _ _ => true
  | _ => false

/-- What was in flight and parked when a region was entered still lies below everything
that guard bodies have parked since, and the records that the region found are
unchanged.

What guard bodies park lies above what was there before, and they give it back in
reverse order. So it is enough to know what lies below. -/
structure Undisturbed (found entries : Entries) : Prop where
  flights : found.inFlight :: found.parked <:+ entries.inFlight :: entries.parked
  records : entries.records.take found.records.length = found.records

/-- A region that lies open, with what it found when it was entered: its records need no
frames that are younger, and one that was in flight is among them. -/
structure Encloses (visit : Visit) (found : Entries) (outer ledger : List Extent) :
    Prop where
  inside : ∃ above phase, ledger = above ++ .protecting visit phase :: outer
  recalled : Recalled ledger
  shelters : found.parked.length = outer.countP Extent.isGuardBody
  count : visit.entry.exceptions = found.records.length
  anchored : ∀ record ∈ found.records, record.reachesAbove visit.entry.frames = false
  low : ∀ index, found.inFlight = some index → index < found.records.length

section

variable {visit : Visit} {found before after : Entries} {outer ledger : List Extent}
    {deed : Deed}

private theorem Encloses.isOpen (h : Encloses visit found outer ledger) :
    visit ∈ ledger.filterMap Extent.protected? := by
  obtain ⟨above, phase, rfl⟩ := h.inside
  exact List.mem_filterMap.2 ⟨.protecting visit phase, by simp, rfl⟩

/-- The region is open, so at least as many guard bodies run as when it was entered. -/
theorem Encloses.countP_le (h : Encloses visit found outer ledger) :
    outer.countP Extent.isGuardBody ≤ ledger.countP Extent.isGuardBody := by
  obtain ⟨above, phase, rfl⟩ := h.inside
  rw [List.countP_append, List.countP_cons_of_neg (by simp [Extent.isGuardBody])]
  exact Nat.le_add_left _ _

namespace Undisturbed

/-- While a guard body runs in the region, what was in flight is parked. -/
theorem parks (h : Undisturbed found before)
    (hEncloses : Encloses visit found outer ledger)
    (hNested : Nested .thread ledger before)
    (hBody : outer.countP Extent.isGuardBody < ledger.countP Extent.isGuardBody) :
    found.inFlight :: found.parked <:+ before.parked := by
  obtain hSame | hBelow := List.suffix_cons_iff.1 h.flights
  · have hLength := congrArg List.length hSame
    rw [List.length_cons, List.length_cons, hEncloses.shelters, hNested.length_parked]
      at hLength
    omega
  · exact hBelow

/-- While none does, it is in flight. -/
theorem flies (h : Undisturbed found before)
    (hEncloses : Encloses visit found outer ledger)
    (hNested : Nested .thread ledger before)
    (hNone : ledger.countP Extent.isGuardBody = outer.countP Extent.isGuardBody) :
    before.inFlight = found.inFlight ∧ before.parked = found.parked := by
  have hSame := h.flights.eq_of_length (by
    rw [List.length_cons, List.length_cons, hEncloses.shelters, hNested.length_parked,
      hNone])
  obtain ⟨hFlight, hParked⟩ := List.cons.inj hSame
  exact ⟨hFlight.symm, hParked.symm⟩

private theorem long (h : Undisturbed found before) :
    found.records.length ≤ before.records.length := by
  have hLength := congrArg List.length h.records
  rw [List.length_take] at hLength
  omega

/-- The records that a region found are not touched when frames go away that are
younger. -/
private theorem settles (hEncloses : Encloses visit found outer ledger) {depth : Nat}
    {frames : List Frame} (hDepth : visit.entry.frames ≤ depth) :
    (found.records.map fun record => record.settle depth frames) = found.records := by
  conv_rhs => rw [← List.map_id found.records]
  refine List.map_congr_left fun record hMem => ?_
  exact Record.settle_of_not_reachesAbove
    (Record.reachesAbove_mono (hEncloses.anchored record hMem) hDepth)

/-- What a region above gives back are records of its own. -/
private theorem records_released (h : Undisturbed found before)
    (hEncloses : Encloses visit found outer ledger)
    (hNested : Nested .thread ledger before) {left : Visit} {unwinding : Bool}
    (hFits : (Deed.leaves left unwinding .nothing).Fits ledger) :
    ((released before.inFlight left.entry.exceptions unwinding before.records).map
      fun record => record.settle left.entry.frames before.frames).take
        found.records.length =
        found.records := by
  obtain ⟨-, hLong⟩ := hNested.floor_le_entry Ground.firm_thread hFits
  have hLow := hNested.entry_le_left hFits visit hEncloses.isOpen
  rw [hEncloses.count] at hLow
  have hFrames : visit.entry.frames ≤ left.entry.frames := by
    have hRecalled := hEncloses.recalled
    obtain ⟨above, phase, rfl⟩ := hEncloses.inside
    obtain hRegion | ⟨_, hProtecting⟩ := hFits
    · exact hRecalled.frames_le hRegion rfl
    · exact hRecalled.frames_le hProtecting rfl
  rw [← List.map_take, take_released hLow hLong, h.records, settles hEncloses hFrames]

/-- Where nothing of the region is in flight, what is in flight lies below what any
region above gives back. -/
private theorem keeps_flight (h : Undisturbed found before)
    (hEncloses : Encloses visit found outer ledger)
    (hNested : Nested .thread ledger before) {left : Visit} {unwinding : Bool}
    {parked : List (Option Nat)}
    (hFits : (Deed.leaves left unwinding .nothing).Fits ledger)
    (hParked : parked = before.parked) :
    found.inFlight :: found.parked <:+
      flightAfter before.inFlight left.entry.exceptions unwinding :: parked := by
  subst hParked
  have hLow := hNested.entry_le_left hFits visit hEncloses.isOpen
  rw [hEncloses.count] at hLow
  obtain hBody | hNone := Nat.lt_or_eq_of_le hEncloses.countP_le
  · exact (h.parks hEncloses hNested hBody).trans (List.suffix_cons _ _)
  · obtain ⟨hFlight, hParked⟩ := h.flies hEncloses hNested hNone.symm
    rw [hFlight, hParked]
    cases hIndex : found.inFlight with
    | none => exact List.suffix_refl _
    | some index =>
        have hBelow := hEncloses.low index hIndex
        have hSame : flightAfter (some index) left.entry.exceptions unwinding =
            some index :=
          if_pos (by omega)
        exact hSame.symm ▸ List.suffix_refl _

/-- What happens in a region leaves what was in flight undisturbed, unless an exception
is sent on its way there that no guard body shields from it. With a guard body in
between the record in flight may be any, and a guard body that returns runs in the
region. Without one, an exception that a region catches would have been raised in that
very region, which the condition on launches rules out. -/
theorem turns (h : Undisturbed found before)
    (hEncloses : Encloses visit found outer ledger)
    (hNested : Nested .thread ledger before) (hTurns : deed.Turns before after)
    (hFits : deed.Fits ledger)
    (hLaunches : deed.launches = true →
      outer.countP Extent.isGuardBody < ledger.countP Extent.isGuardBody)
    (hCatches : ∀ left exception index, deed = .catches left exception →
      before.inFlight = some index → left.entry.exceptions ≤ index) :
    Undisturbed found after := by
  have shielded {place : Option Nat} {parked : List (Option Nat)}
    (hParked : parked = before.parked)
    (hBody : outer.countP Extent.isGuardBody < ledger.countP Extent.isGuardBody) :
      found.inFlight :: found.parked <:+ place :: parked := by
    rw [hParked]
    exact (h.parks hEncloses hNested hBody).trans (List.suffix_cons _ _)
  have appended (more : List Record) :
      (before.records ++ more).take found.records.length = found.records := by
    rw [List.take_append_of_le_length h.long, h.records]
  obtain ⟨hParked, -⟩ := hTurns.lays hNested hFits
  cases hTurns with
  | quiet isQuiet => exact h
  | annotates => exact ⟨h.flights, h.records⟩
  | enters number measured => exact ⟨by rw [hParked]; exact h.flights, h.records⟩
  | leaves isFramed count =>
      exact ⟨h.keeps_flight hEncloses hNested hFits hParked,
        h.records_released hEncloses hNested hFits⟩
  | abandons isFramed count =>
      have hLeft : (Deed.leaves _ false .nothing).Fits ledger := .inl hFits
      exact ⟨h.keeps_flight hEncloses hNested hLeft hParked,
        h.records_released hEncloses hNested hLeft⟩
  | @catches _ left region regions index record innermost inFlight isFound =>
      refine ⟨?_, h.records⟩
      obtain hBody | hNone := Nat.lt_or_eq_of_le hEncloses.countP_le
      · exact shielded hParked hBody
      · obtain ⟨hFlight, -⟩ := h.flies hEncloses hNested hNone.symm
        have hOwn := hCatches _ _ index rfl inFlight
        have hLeft : (Deed.leaves left true .nothing).Fits ledger := .inr ⟨.body, hFits⟩
        have hLow := hNested.entry_le_left hLeft visit hEncloses.isOpen
        have hBelow := hEncloses.low index (hFlight.symm.trans inFlight)
        rw [hEncloses.count] at hLow
        omega
  | reports innermost => exact ⟨shielded hParked (hLaunches rfl), appended _⟩
  | handles innermost marked own => exact ⟨by rw [hParked]; exact h.flights, h.records⟩
  | raises isCaught => exact ⟨shielded hParked (hLaunches rfl), appended _⟩
  | forwards isCaught => exact ⟨shielded hParked (hLaunches rfl), appended _⟩
  | opensScope number => exact ⟨h.flights, h.records⟩
  | shields =>
      refine ⟨?_, h.records⟩
      rw [hParked]
      exact h.flights.trans (List.suffix_cons _ _)
  | @unshields _ mark parked rest marked =>
      refine ⟨?_, h.records⟩
      have hBody :
          outer.countP Extent.isGuardBody < ledger.countP Extent.isGuardBody := by
        obtain ⟨above, phase, rfl⟩ := hEncloses.inside
        cases above with
        | nil => cases hFits
        | cons top above =>
            cases hFits
            rw [List.cons_append, List.countP_cons_of_pos rfl, List.countP_append,
              List.countP_cons_of_neg (by simp [Extent.isGuardBody])]
            omega
      have hBelow := h.parks hEncloses hNested hBody
      have hBefore : before.parked = parked :: (parkings? rest).map Prod.snd := by
        rw [Entries.parked, marked]
        rfl
      rw [hBefore] at hBelow
      exact hBelow
  | entersCall measured => exact ⟨h.flights, h.records⟩
  | @leavesCall _ entry above below isFramed count =>
      refine ⟨h.flights, ?_⟩
      have hFrames : visit.entry.frames ≤ entry.frames := by
        have hRecalled := hEncloses.recalled
        obtain ⟨above, phase, rfl⟩ := hEncloses.inside
        exact hRecalled.frames_le hFits rfl
      change (before.records.map _).take _ = _
      rw [← List.map_take, h.records, settles hEncloses hFrames]

end Undisturbed

end

/-! ## All along a region -/

/-- The next step sends an exception on its way. -/
def Machine.launches (m : Machine ν) : Bool :=
  m.deed.launches

/-- A step of a run that closes in turn. In a region whose surroundings are `outer`,
only guard bodies send exceptions on their way.

Guard bodies may raise as they like, since each is shielded. Anything else in the region
that raises would take the only place for a record in flight. -/
def Machine.Gentle (outer : List Extent) (m : Machine ν) (ledger : List Extent) :
    Prop :=
  m.InTurn ledger ∧
    (m.launches = true → outer.countP Extent.isGuardBody <
      ledger.countP Extent.isGuardBody)

instance (outer : List Extent) (m : Machine ν) (ledger : List Extent) :
    Decidable (m.Gentle outer ledger) :=
  inferInstanceAs (Decidable (_ ∧ _))

section

variable {m : Machine ν} {ledger outer : List Extent} {visit : Visit} {found : Entries}

/-- What is known of every state of a run in which destructors use the runtime. -/
private structure Followed (m : Machine ν) (ledger : List Extent) : Prop where
  footing : Footing m ledger
  upright : Upright m ledger
  remembers : ∃ known, Remembers known m

private theorem Followed.step (h : Followed m ledger) (hTurn : m.InTurn ledger)
    (hGoesOn : m.step.poisoned = false) : Followed m.step (m.move.apply ledger) := by
  obtain ⟨known, hKnown⟩ := h.remembers
  exact ⟨h.footing.step hTurn hGoesOn, h.upright.step hTurn hGoesOn, _,
    hKnown.step hGoesOn⟩

private theorem Followed.destruct (h : Followed m ledger) {payload : Payload}
    (hUnwinds : m.focus = .unwind payload) (body : List (Stmt ν)) :
    Followed (m.destruct payload body) ledger := by
  obtain ⟨known, hKnown⟩ := h.remembers
  exact ⟨h.footing.destruct hUnwinds, h.upright.destruct, known,
    hKnown.destruct hUnwinds⟩

private theorem followed_of_unfolds {drops : Payload → Prop} {process : Process}
    {auto : Bool} {limits : Option Limits} {body : List (Stmt ν)}
    (h : Unfolds Machine.InTurn drops (.start process auto limits body)
      (Machine.start process auto limits body).opened m ledger) :
        Followed m ledger := by
  induction h with
  | start =>
      exact ⟨footing_start process auto limits body,
        upright_start process auto limits body, _,
        remembers_start process auto limits body⟩
  | step before isAllowed goesOn ih => exact ih.step isAllowed goesOn
  | destructs before unwinds isDropping body ih => exact ih.destruct unwinds body

/-- What a region found when it was entered. -/
private structure Finds (visit : Visit) (found : Entries) (outer : List Extent) :
    Prop where
  shelters : found.parked.length = outer.countP Extent.isGuardBody
  count : visit.entry.exceptions = found.records.length
  anchored : ∀ record ∈ found.records, record.reachesAbove visit.entry.frames = false
  low : ∀ index, found.inFlight = some index → index < found.records.length

/-- All along a region that runs while an exception is on its way: what was in flight is
undisturbed. -/
private structure Interlude (visit : Visit) (found : Entries) (outer : List Extent)
    (m : Machine ν) (ledger : List Extent) : Prop where
  followed : Followed m ledger
  inside : ∃ above phase, ledger = above ++ .protecting visit phase :: outer
  undisturbed : ∃ context, m.context = some context ∧ Undisturbed found context.entries

namespace Interlude

private theorem encloses (h : Interlude visit found outer m ledger)
    (hFinds : Finds visit found outer) : Encloses visit found outer ledger := by
  obtain ⟨context, hContext, -⟩ := h.undisturbed
  exact ⟨h.inside, (h.followed.upright.aligned context hContext).recalled,
    hFinds.shelters, hFinds.count, hFinds.anchored, hFinds.low⟩

/-- The thread lies below the region. -/
private theorem not_closes (h : Interlude visit found outer m ledger)
    (hTurn : m.InTurn ledger) : m.deed ≠ .closes := by
  intro hCloses
  have hStands := h.followed.footing.stands
  have hFits := hStands.fits hTurn
  rw [hCloses] at hFits
  obtain ⟨context, hContext, -⟩ := h.undisturbed
  obtain ⟨_, hLayered, -⟩ := hStands.nested context hContext
  obtain ⟨above, phase, hLedger⟩ := h.inside
  obtain ⟨rest, hRest⟩ := List.head?_eq_some_iff.1 hFits
  have hOpen : .protecting visit phase ∈ ledger := by simp [hLedger]
  rw [hRest] at hLayered hOpen
  cases hLayered.of_thread
  simp at hOpen

/-- What the next step leaves of what was in flight. -/
private theorem turns (h : Interlude visit found outer m ledger)
    (hFinds : Finds visit found outer) (hGentle : m.Gentle outer ledger)
    (hGoesOn : m.step.poisoned = false) :
    ∃ after, m.step.context = some after ∧ Undisturbed found after.entries := by
  obtain ⟨context, hContext, hUndisturbed⟩ := h.undisturbed
  have hFooting := h.followed.footing
  obtain ⟨after, hAfter, hTurns⟩ :=
    hFooting.stands.turns hContext (h.not_closes hGentle.1) hGoesOn
  exact ⟨after, hAfter, hUndisturbed.turns (h.encloses hFinds)
    (hFooting.stands.nested context hContext) hTurns (hFooting.stands.fits hGentle.1)
      hGentle.2
    fun left exception index hDeed hIndex => hFooting.catches hGoesOn hContext hDeed
      hIndex⟩

private theorem step (h : Interlude visit found outer m ledger)
    (hFinds : Finds visit found outer) (hGentle : m.Gentle outer ledger)
    (hGoesOn : m.step.poisoned = false)
    (hStays : outer.length < (m.move.apply ledger).length) :
    Interlude visit found outer m.step (m.move.apply ledger) := by
  refine ⟨h.followed.step hGentle.1 hGoesOn, ?_, h.turns hFinds hGentle hGoesOn⟩
  obtain ⟨above, phase, rfl⟩ := h.inside
  have hSplit : above ++ .protecting visit phase :: outer =
      (above ++ [.protecting visit phase]) ++ outer := by simp
  rw [hSplit, Move.apply_append _ _ (by simp)] at hStays ⊢
  obtain hNil | ⟨above', phase', hLeft⟩ := Move.apply_region m.move above visit phase
  · rw [hNil] at hStays
    exact absurd hStays (Nat.lt_irrefl _)
  · exact ⟨above', phase', by rw [hLeft]; simp⟩

private theorem unfolds {drops : Payload → Prop} {start : Machine ν}
    {opened : List Extent}
    (h : Unfolds (fun m ledger => m.Gentle outer ledger ∧ outer.length < ledger.length)
      drops start opened m ledger)
    (hStart : Interlude visit found outer start opened)
    (hFinds : Finds visit found outer)
    (hOpen : outer.length < ledger.length) : Interlude visit found outer m ledger := by
  induction h with
  | start => exact hStart
  | step before isAllowed goesOn ih =>
      exact (ih isAllowed.2).step hFinds isAllowed.1 goesOn hOpen
  | destructs before unwinds isDropping body ih =>
      have hNow := ih hOpen
      exact ⟨hNow.followed.destruct unwinds body, hNow.inside, hNow.undisturbed⟩

end Interlude

/-- A region is entered on what it finds. -/
private theorem interlude_entered {before : Context} {levels : Nat} {site : Site}
    {mode : Mode} {clauses : List (Clause ν)} {code : List (Stmt ν)}
    (h : Followed m outer)
    (hFocus : m.focus = .exec (.protect levels site mode clauses code))
    (hContext : m.context = some before) (hGoesOn : m.step.poisoned = false) :
    ∃ visit, visit.entry = before.depths ∧
      Interlude visit before.entries outer m.step (m.move.apply outer) := by
  have hStands := h.footing.stands
  have hTurn := Machine.inTurn_protect outer hFocus
  have hStep : m.step = m.protect levels site mode clauses code := by
    simp only [Machine.step, hFocus, Machine.exec]
  obtain ⟨_, visit, after, hSome, hOk, -⟩ := Machine.performed hStep hGoesOn
  obtain rfl := Option.some.inj (hContext.symm.trans hSome)
  have hVisit : visit = ⟨before.nextId, site, before.depths, false⟩ :=
    (effect_enter.of_ok hOk).1
  have hDeed : m.deed = .enters visit := by
    simp only [Machine.deed, hFocus, Machine.deedOf]
    exact Machine.answering_ok hContext hOk
  have hMove : m.move = .opens (.protecting visit .body) := by
    simp only [Machine.move, hFocus]
    exact after_ok hContext hOk
  obtain ⟨entered, hEntered, hTurns⟩ := hStands.turns hContext (by simp [hDeed]) hGoesOn
  obtain ⟨hParked, -⟩ :=
    hTurns.lays (hStands.nested before hContext) (hStands.fits hTurn)
  refine ⟨visit, by rw [hVisit], h.step hTurn hGoesOn, ⟨[], .body, by rw [hMove]; rfl⟩,
    entered, hEntered, ?_⟩
  rw [hDeed] at hTurns hParked
  generalize entered.entries = entries at hTurns hParked
  cases hTurns with
  | quiet isQuiet => exact isQuiet.elim
  | enters number measured =>
      refine ⟨?_, List.take_length⟩
      rw [hParked]
      exact List.suffix_refl _

private theorem finds_of_followed {before : Context} {index : Nat} {record : Record}
    (h : Followed m outer) (hContext : m.context = some before)
    (hEntry : visit.entry = before.depths) (hFlight : before.inFlight = some index)
    (hRecord : before.records.get? index = some record) :
    Finds visit before.entries outer := by
  obtain ⟨known, hKnown⟩ := h.remembers
  have hMeasured := before.measured
  rw [← hEntry] at hMeasured
  refine ⟨(h.footing.stands.nested before hContext).length_parked, hMeasured.exceptions,
    fun other hMem => ?_, fun other hOther => ?_⟩
  · rw [hMeasured.frames]
    exact (hKnown.records before hContext).anchored other hMem
  · obtain rfl := Option.some.inj (hFlight.symm.trans hOther)
    rw [← Stack.getElem?_toList] at hRecord
    exact (List.getElem?_eq_some_iff.1 hRecord).1

end

/-! ## The law -/

/-- A protected region runs while an exception is in flight: it is entered from a run
that closes in turn, in which destructors use the runtime, and left with the step of
`last`. Nothing is raised, sent on or reported in it outside of guard bodies.

The region may be entered by a destructor, by foreign code that has stopped the
unwinding for a while, or in any other way that a run in turn allows. -/
structure Intervenes (start entering : Machine ν) (outer : List Extent)
    (last : Machine ν)
    (ledger : List Extent) : Prop where
  arrives : Unfolds Machine.InTurn (fun _ => True) start start.opened entering outer
  protects : ∃ levels site mode clauses code,
    entering.focus = .exec (.protect levels site mode clauses code)
  enters : entering.step.poisoned = false
  inside :
    Unfolds (fun m ledger => m.Gentle outer ledger ∧ outer.length < ledger.length)
    (fun _ => True) entering.step (entering.move.apply outer) last ledger
  isOpen : outer.length < ledger.length
  isGentle : last.Gentle outer ledger
  goesOn : last.step.poisoned = false
  leaves : (last.move.apply ledger).length = outer.length

/-- A protected region that runs while an exception is in flight leaves it there, with
its record unchanged, if nothing is raised, sent on or reported in the region outside of
guard bodies. The region around it then catches that very exception.

The record is looked at by its index, which is the same before and after: nothing below
what the region found has moved. That the region around catches that very exception is
put as the answer of `catchInFlight` in the context that is left. -/
theorem interlude_restores {process : Process} {auto : Bool} {limits : Option Limits}
    {body : List (Stmt ν)} {entering last : Machine ν} {outer ledger : List Extent}
    {before : Context} {index : Nat} {record : Record}
    (h : Intervenes (.start process auto limits body) entering outer last ledger)
    (hContext : entering.context = some before) (hFlight : before.inFlight = some index)
    (hRecord : before.records.get? index = some record) :
    ∃ after, last.step.context = some after ∧ after.inFlight = some index ∧
      after.records.get? index = some record ∧
      ∀ region rest, after.regions.live = region :: rest →
        ∃ caught, catchInFlight region.visit after =
          .ok (record.toException after.frames) caught := by
  obtain ⟨_, _, _, _, _, hFocus⟩ := h.protects
  have hFollowed := followed_of_unfolds h.arrives
  obtain ⟨visit, hEntry, hEntered⟩ :=
    interlude_entered hFollowed hFocus hContext h.enters
  have hFinds := finds_of_followed hFollowed hContext hEntry hFlight hRecord
  have hLast := hEntered.unfolds h.inside hFinds h.isOpen
  obtain ⟨after, hAfter, hUndisturbed⟩ := hLast.turns hFinds h.isGentle h.goesOn
  have hOuter := hLast.followed.step h.isGentle.1 h.goesOn
  have hLedger : last.move.apply ledger = outer := by
    have hCloses : last.move = .closes := Move.closes_of_shorter (h.leaves ▸ h.isOpen)
    have hLength := h.leaves
    obtain ⟨above, phase, rfl⟩ := hLast.inside
    rw [hCloses] at hLength ⊢
    cases above with
    | nil => rfl
    | cons top rest =>
        have hLonger : (rest ++ .protecting visit phase :: outer).length =
            outer.length := hLength
        rw [List.length_append, List.length_cons] at hLonger
        omega
  rw [hLedger] at hOuter
  have hParked := (hOuter.footing.stands.nested after hAfter).length_parked
  have hSame := hUndisturbed.flights.eq_of_length (by
    rw [List.length_cons, List.length_cons, hParked, hFinds.shelters])
  have hAgain : after.inFlight = some index :=
    (List.cons.inj hSame).1.symm.trans hFlight
  have hKept : after.records.get? index = some record := by
    have hLow := hFinds.low index hFlight
    rw [← Stack.getElem?_toList] at hRecord ⊢
    have hRecords : after.records.toList.take before.entries.records.length =
        before.records.toList := hUndisturbed.records
    rw [← hRecord, ← hRecords, List.getElem?_take_of_lt hLow]
  refine ⟨after, hAfter, hAgain, hKept, fun region rest hRegions => ?_⟩
  have hCatches := answers_catchInFlight hRegions rfl hAgain hKept
  cases hOutcome : catchInFlight region.visit after with
  | ok exception caught =>
      rw [hOutcome] at hCatches
      exact ⟨caught, by rw [hCatches.1]⟩
  | error error caught =>
      rw [hOutcome] at hCatches
      exact hCatches.elim

/-! ### A region in a destructor -/

/-- A region is entered next. -/
private def Machine.isEntering (m : Machine ν) : Bool :=
  match m.focus with
  | .exec (.protect _ _ _ _ _) => true
  | _ => false

private theorem Machine.focus_of_isEntering {m : Machine ν} (h : m.isEntering = true) :
    ∃ levels site mode clauses code,
      m.focus = .exec (.protect levels site mode clauses code) := by
  unfold isEntering at h
  split at h
  · next levels site mode clauses code hFocus =>
      exact ⟨levels, site, mode, clauses, code, hFocus⟩
  · cases h

/-- A region has one guard body, which enters another region, raises in it and
catches. -/
def tidying : List (Stmt Nat) :=
  [.protect 1 ⟨"main", 3, "drop"⟩ .run []
    [.acquire "undo" (.guards ⟨"main", 4, "drop"⟩) 1,
      .guard "undo" .always caughtAtOnce]]

/-- The law speaks of a destructor that runs `tidying` while a raise unwinds. -/
theorem interlude_restores_tidying :
    ∃ (entering last : Machine Nat) (outer ledger : List Extent)
      (before after : Context)
      (record : Record), Intervenes (.start {} true none caughtAtOnce)
        entering outer last ledger ∧
      entering.context = some before ∧ before.inFlight = some 0 ∧
      before.records.get? 0 = some record ∧ last.step.context = some after ∧
      after.inFlight = some 0 ∧ after.records.get? 0 = some record := by
  let flies (context : Context) : Bool :=
    decide (context.inFlight = some 0) && (context.records.get? 0).isSome
  let leaves (outer : List Extent) (m : Machine Nat) (ledger : List Extent) : Bool :=
    decide (outer.length < ledger.length) && decide (m.Gentle outer ledger) &&
      !m.step.poisoned && (m.move.apply ledger).length == outer.length
  obtain ⟨entering, outer, hArrives, hTest⟩ :=
    Unfolds.of_follow (fun _ => True) .raise trivial
    5 1 tidying
    (fun entering outer => entering.isEntering && !entering.step.poisoned &&
      entering.context.any flies &&
      (follow (fun m ledger => m.Gentle outer ledger ∧ outer.length < ledger.length) 31
        entering.step (entering.move.apply outer)).any fun state =>
          leaves outer state.1 state.2)
    (show (follow Machine.InTurn 5 (.start {} true none caughtAtOnce)
      (Machine.start {} true none caughtAtOnce).opened).any _ = true by decide +kernel)
  simp only [Bool.and_eq_true, Bool.not_eq_true'] at hTest
  obtain ⟨⟨⟨hProtects, hEnters⟩, hFlies⟩, hFollow⟩ := hTest
  obtain ⟨last, ledger, hInside, hLeaves⟩ := Reaches.of_follow 31 (leaves outer) hFollow
  obtain ⟨before, hContext, hBefore⟩ := (Option.any_eq_true _ _).1 hFlies
  simp only [leaves, Bool.and_eq_true, decide_eq_true_eq, Bool.not_eq_true', beq_iff_eq]
    at hLeaves
  simp only [flies, Bool.and_eq_true, decide_eq_true_eq, Option.isSome_iff_exists]
    at hBefore
  obtain ⟨⟨⟨hOpen, hGentle⟩, hGoesOn⟩, hLength⟩ := hLeaves
  obtain ⟨hFlight, record, hRecord⟩ := hBefore
  have hIntervenes :
      Intervenes (.start {} true none caughtAtOnce) entering outer last ledger :=
    ⟨hArrives, Machine.focus_of_isEntering hProtects, hEnters, hInside.unfolds, hOpen,
      hGentle, hGoesOn, hLength⟩
  obtain ⟨after, hAfter, hAgain, hKept, -⟩ :=
    interlude_restores hIntervenes hContext hFlight hRecord
  exact ⟨entering, last, outer, ledger, before, after, record, hIntervenes, hContext,
    hFlight, hRecord, hAfter, hAgain, hKept⟩

/-- Foreign code stops a raise, runs a protected region that raises and catches, and
lets the first raise go on. -/
def interrupted : List (Stmt Nat) :=
  [.protect 1 ⟨"main", 1, "main"⟩ .run catchAll
    [.attempt [.raise (.direct .illegalEscape) ⟨"main", 2, "main"⟩ []]
      (some [.protect 1 ⟨"main", 3, "between"⟩ .run catchAll
        [.raise (.direct .illegalEscape) ⟨"main", 4, "between"⟩ []]])]]

/-- A run that closes in turn but is not orderly may fail: only one record is in flight
at a time, and the region that is run in between does not put the other one back.

The region that runs in between is complete: it is entered, it catches what its body
raises, and it is left normally. A guard body may do the same, since its mark parks what
is in flight. -/
theorem interrupted_fails :
    ∃ m ledger,
      Reaches Machine.InTurn (.start {} true none interrupted)
        (Machine.start {} true none interrupted).opened m ledger ∧
        m.InTurn ledger ∧ m.step.poisoned = true ∧
        m.step.failure? = some (.corrupted (.noRecord ⟨"main", 1, "main"⟩)) :=
  Reaches.fails_of_follow 25 (by decide +kernel)

end Unwinding
