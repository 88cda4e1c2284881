import Unwinding.Proofs.Courses
import Unwinding.Proofs.Nesting

/-!
# Where the record of a raise lies

The runtime keeps one index for the record in flight. Foreign code can stop a raise, let
other code run, and let the raise go on; by then the index may have been cleared, or may
be that of another record. It never is one that lies too low, though: at any time, the
record in flight lies above everything that was there when the regions were entered that
a raise can arrive at (`Footed`). So a region that catches an exception takes a record
of its own (`Footing.catches`).

For this the code that waits is compared with the ledger: the regions that it waits in
are open, in that order (`Woven`).

## Main results

* `Footing.step` — a step keeps the record in flight where it belongs.
* `Footing.catches` — what a region catches was raised after it was entered.
-/

namespace Unwinding

open Context

/-! ## Waiting code and the ledger -/

/-- The visit of a protected region whose body or handler waits. -/
def Joint.visit? : Joint → Option Visit
  | .region visit => some visit
  | _ => none

/-- The visit of a protected region on the ledger. -/
def Extent.protected? : Extent → Option Visit
  | .protecting visit _ => some visit
  | _ => none

@[simp] theorem visits_region (visit : Visit) (below : List Joint) :
    (Joint.region visit :: below).filterMap Joint.visit? =
      visit :: below.filterMap Joint.visit? := rfl

@[simp] theorem visits_protecting (visit : Visit) (phase : Phase)
    (ledger : List Extent) :
    (Extent.protecting visit phase :: ledger).filterMap Extent.protected? =
      visit :: ledger.filterMap Extent.protected? := rfl

/-- The regions that code waits in are open, in that order. -/
def Woven (joints : List Joint) (ledger : List Extent) : Prop :=
  (joints.filterMap Joint.visit?).Sublist (ledger.filterMap Extent.protected?)

section

variable {closing : Option Extent} {deed : Deed} {ledger : List Extent}
    {before after : List Joint} {course next : Course}
  {active left : Nat}

/-- A deed that leaves no protected region leaves all of them open. -/
theorem Deed.protected_apply (hFits : deed.Fits ledger)
    (hStays : ∀ visit unwinding fate, deed = .leaves visit unwinding fate →
      ledger.head? = some (.region visit)) :
    (ledger.filterMap Extent.protected?).Sublist
    ((deed.move.apply ledger).filterMap Extent.protected?) := by
  cases deed with
  | enters visit =>
      simp only [Deed.move, entered]
      split
      · exact .refl _
      · exact List.sublist_cons_self _ _
  | leaves visit unwinding fate =>
      obtain ⟨rest, rfl⟩ := List.head?_eq_some_iff.1 (hStays visit unwinding fate rfl)
      exact .refl _
  | catches visit exception =>
      obtain ⟨rest, rfl⟩ := List.head?_eq_some_iff.1 hFits
      exact .refl _
  | reports visit exception =>
      obtain ⟨rest, rfl⟩ := List.head?_eq_some_iff.1 hFits
      exact .refl _
  | handles visit exception name =>
      obtain ⟨rest, rfl⟩ := List.head?_eq_some_iff.1 hFits
      exact .refl _
  | closes =>
      obtain ⟨rest, rfl⟩ := List.head?_eq_some_iff.1 hFits
      exact .refl _
  | abandons visit =>
      obtain ⟨rest, rfl⟩ := List.head?_eq_some_iff.1 hFits
      exact .refl _
  | closesScope mark =>
      obtain ⟨rest, rfl⟩ := List.head?_eq_some_iff.1 hFits
      exact .refl _
  | unshields mark =>
      obtain ⟨rest, rfl⟩ := List.head?_eq_some_iff.1 hFits
      exact .refl _
  | leavesCall entry =>
      obtain ⟨rest, rfl⟩ := List.head?_eq_some_iff.1 hFits
      exact .refl _
  | _ => exact .refl _

/-- A region that is left is neither waited in nor open any more. -/
theorem Woven.leaves {visit : Visit} {unwinding : Bool} {fate : Fate}
    {joints : List Joint} (h : Woven (.region visit :: joints) ledger)
    (hFits : (Deed.leaves visit unwinding fate).Fits ledger) :
    Woven joints ledger.tail := by
  unfold Woven at h ⊢
  rw [visits_region] at h
  obtain hRegion | ⟨phase, hProtecting⟩ := hFits
  · obtain ⟨rest, rfl⟩ := List.head?_eq_some_iff.1 hRegion
    exact (List.sublist_cons_self _ _).trans h
  · obtain ⟨rest, rfl⟩ := List.head?_eq_some_iff.1 hProtecting
    rw [visits_protecting] at h
    exact List.cons_sublist_cons.1 h

/-- A shift keeps the regions that code waits in open. -/
theorem Shift.woven (hShift : Shift closing deed before course active after next left)
    (hFits : deed.Fits ledger)
    (hClosing : ∀ extent, closing = some extent → ledger.head? = some extent)
    (h : Woven before ledger) :
    Woven after (deed.move.apply ledger) := by
  have stays (hMild : deed.IsMild closing) {joints : List Joint}
    (h : Woven joints ledger) :
      Woven joints (deed.move.apply ledger) := by
    refine h.trans (Deed.protected_apply hFits fun visit unwinding fate hDeed => ?_)
    subst hDeed
    exact hClosing _ hMild
  have moves {joints : List Joint} (hDeed : ∀ visit unwinding fate,
    deed ≠ .leaves visit unwinding fate)
      (h : Woven joints ledger) : Woven joints (deed.move.apply ledger) :=
    h.trans (Deed.protected_apply hFits fun visit unwinding fate hLeaves =>
      absurd hLeaves (hDeed _ _ _))
  induction hShift with
  | runs isMild => exact stays isMild h
  | waits _ ih => exact ih hFits h stays moves
  | pauses _ ih => exact ih hFits h stays moves
  | pops isMild => exact stays isMild h
  | drops isMild => exact stays isMild h
  | panics isMild isPanic => exact stays isMild h
  | halts isMild => exact stays isMild h
  | loses isMild isTop =>
      refine stays isMild ?_
      obtain rfl | ⟨payload, rfl⟩ := isTop <;> exact h
  | @raises deed joints active isRaise =>
      refine moves (fun visit unwinding fate hDeed => ?_) h
      rw [hDeed] at isRaise
      exact isRaise
  | @enters joints visit active isProtected =>
      unfold Woven at h ⊢
      simp only [Deed.move, entered, isProtected, Move.apply]
      exact h.cons_cons visit
  | leaves => exact h.leaves hFits
  | passesRegion => exact h.leaves hFits
  | _ => exact moves (fun _ _ _ hDeed => by cases hDeed) h

end

/-! ## The marks of guard bodies -/

/-- The guard bodies of a dispatch stack, each with the record that it parks, the
innermost body first. -/
def parkings? (dispatch : List Dispatch) : List (Nat × Option Nat) :=
  dispatch.filterMap fun mark =>
    match mark with
    | .region _ => none
    | .guard owner parked => some (owner, parked)

@[simp] theorem parkings?_region (owner : Nat) (rest : List Dispatch) :
    parkings? (.region owner :: rest) = parkings? rest := rfl

@[simp] theorem parkings?_guard (owner : Nat) (place : Option Nat)
    (rest : List Dispatch) :
    parkings? (.guard owner place :: rest) = (owner, place) :: parkings? rest := rfl

@[simp] theorem parkings?_marks (owner : Nat) (phase : Phase) (rest : List Dispatch) :
    parkings? (phase.marks owner ++ rest) = parkings? rest := by
  cases phase <;> rfl

/-- The records that guard bodies park, the innermost body first. -/
def Entries.parked (entries : Entries) : List (Option Nat) :=
  (parkings? entries.dispatch).map Prod.snd

section

variable {ledger : List Extent} {before after : Entries} {deed : Deed}

/-- A region that is left removes no mark of a guard body. -/
theorem Nested.parkings_leave {visit : Visit} {unwinding : Bool} (fate : Fate)
    (h : Nested .thread ledger before)
    (hFits : (Deed.leaves visit unwinding fate).Fits ledger) :
    parkings? (before.leave visit unwinding).dispatch = parkings? before.dispatch := by
  change parkings? (dropOwn visit before.dispatch) = _
  obtain ⟨floor, hLayered, -⟩ := h
  obtain hRegion | ⟨phase, hProtecting⟩ := hFits
  · obtain ⟨rest, rfl⟩ := List.head?_eq_some_iff.1 hRegion
    obtain ⟨_, _, -, -, -, hExplicit, -⟩ := hLayered.of_region Ground.firm_thread
    rw [dropOwn_of_explicit _ hExplicit]
  · obtain ⟨rest, rfl⟩ := List.head?_eq_some_iff.1 hProtecting
    obtain ⟨_, marks, _, -, hDispatch, hBelow, -, hProtected, -⟩ :=
      hLayered.of_protecting Ground.firm_thread
    rw [hDispatch, dropOwn_marks phase hProtected (hBelow.owner_lt Ground.firm_thread),
      parkings?_marks]

/-- An explicit region has no dispatch mark, so none goes when it is abandoned. -/
theorem Nested.dispatch_abandon {visit : Visit} {frames : List Frame}
    (h : Nested .thread ledger before) (hFits : (Deed.abandons visit).Fits ledger) :
    (before.abandon visit frames).dispatch = before.dispatch := by
  obtain ⟨floor, hLayered, -⟩ := h
  obtain ⟨rest, rfl⟩ := List.head?_eq_some_iff.1 hFits
  obtain ⟨_, _, -, -, -, -, -, hMarks, -⟩ := hLayered.of_region Ground.firm_thread
  simp only [Entries.abandon, hMarks, Nat.sub_self, List.drop_zero]

/-- The mark that a handler removes is that of its own region. -/
theorem Nested.parkings_handle {visit : Visit} {exception : Exception} {name : String}
    {mark : Dispatch} {rest : List Dispatch} (h : Nested .thread ledger before)
    (hFits : (Deed.handles visit exception name).Fits ledger)
    (hMarked : before.dispatch = mark :: rest) :
    parkings? before.dispatch = parkings? rest := by
  obtain ⟨outer, rfl⟩ := List.head?_eq_some_iff.1 hFits
  obtain ⟨floor, hLayered, -⟩ := h
  obtain ⟨_, others, _, -, hDispatch, -⟩ := hLayered.of_protecting Ground.firm_thread
  have hMark : mark = .region visit.id :=
    (List.cons.inj (hMarked.symm.trans hDispatch)).1
  rw [hMarked, hMark, parkings?_region]

/-- The floor lies above what every protected region found. -/
theorem Layered.entry_le {next floor : Nat} {regions : List Nat}
    {dispatch : List Dispatch}
    (h : Layered .thread next ledger regions dispatch floor) :
    ∀ visit ∈ ledger.filterMap Extent.protected?, visit.entry.exceptions ≤ floor := by
  induction h with
  | ground isFree => exact fun visit hMem => by cases hMem
  | call below ih => exact ih
  | scope below isOld ih => exact ih
  | guardBody below isOld ih => exact ih
  | region below isOld isExplicit hRegions hDispatch hFloor ih =>
      exact fun visit hMem => Nat.le_trans (ih visit hMem) hFloor
  | protecting below isOld isProtected hFloor ih =>
      intro visit hMem
      rw [visits_protecting] at hMem
      rcases List.mem_cons.1 hMem with rfl | hBelow
      · exact Nat.le_refl _
      · exact Nat.le_trans (ih visit hBelow) hFloor

/-- All records that protected regions found are still there. -/
theorem Nested.entry_le (h : Nested .thread ledger before) :
    ∀ visit ∈ ledger.filterMap Extent.protected?,
      visit.entry.exceptions ≤ before.records.length := by
  obtain ⟨floor, hLayered, hFloor⟩ := h
  exact fun visit hMem => Nat.le_trans (hLayered.entry_le visit hMem) hFloor

/-- A region that is left found at least as many records as those around it. -/
theorem Nested.entry_le_left {left : Visit} {unwinding : Bool} {fate : Fate}
    (h : Nested .thread ledger before)
    (hFits : (Deed.leaves left unwinding fate).Fits ledger) :
    ∀ visit ∈ ledger.filterMap Extent.protected?,
      visit.entry.exceptions ≤ left.entry.exceptions := by
  obtain ⟨floor, hLayered, -⟩ := h
  have hFloor : floor = left.entry.exceptions := by
    obtain hRegion | ⟨phase, hProtecting⟩ := hFits
    · obtain ⟨rest, rfl⟩ := List.head?_eq_some_iff.1 hRegion
      obtain ⟨_, _, -, -, -, -, -, -, -, hEntry⟩ :=
        hLayered.of_region Ground.firm_thread
      exact hEntry
    · obtain ⟨rest, rfl⟩ := List.head?_eq_some_iff.1 hProtecting
      obtain ⟨_, _, _, -, -, -, -, -, -, hEntry⟩ :=
        hLayered.of_protecting Ground.firm_thread
      exact hEntry
  exact hFloor ▸ hLayered.entry_le

end

/-! ## The record in flight -/

/-- Whether it is a raise that unwinds here. -/
def Course.isRaise : Course → Bool
  | .unwinds .raise => true
  | _ => false

/-- What a deed does to the record in flight and to those that guard bodies park, but
for the records that regions give back. -/
def Deed.lays (top : Nat) (place : Option Nat) (parked : List (Option Nat)) :
    Deed → Option Nat × List (Option Nat)
  | .raises _ _ _ => (some top, parked)
  | .forwards _ => (some top, parked)
  | .shields _ => (none, place :: parked)
  | .unshields _ => (parked.headD none, parked.tail)
  | _ => (place, parked)

/-- Where a raise is on its way, or will go on, the record in flight lies above what the
regions found that it can arrive at. A guard body holds up what is around it, with the
record that it parks.

It is about places, not about what the records mean. A record that lies above what a
region found is released or moved when the region is left, and never one that belongs to
the outside. -/
def Footed : List Joint → Bool → Option Nat → List (Option Nat) → Prop
  | [], _, _, _ => True
  | .other :: below, raising, place, parked => Footed below raising place parked
  | .region visit :: below, raising, place, parked =>
      (raising = true → ∀ index, place = some index → visit.entry.exceptions ≤ index) ∧
        Footed below raising place parked
  | .unwinding payload :: below, raising, place, parked =>
      Footed below (raising || decide (payload = .raise)) place parked
  | .resuming payload :: below, raising, place, parked =>
      Footed below (raising || decide (payload = .raise)) place parked
  | .guarding :: below, _, _, parked =>
      Footed below false (parked.headD none) parked.tail

section

variable {joints : List Joint} {raising : Bool} {place : Option Nat}
    {parked : List (Option Nat)}

/-- The record in flight may be another one that lies above what the regions found. -/
theorem Footed.replace {other : Bool} {changed : Option Nat}
    (h : Footed joints raising place parked)
    (hChanged : ∀ visit ∈ joints.filterMap Joint.visit?, ∀ index, changed = some index →
      visit.entry.exceptions ≤ index) :
    Footed joints other changed parked := by
  induction joints generalizing raising other with
  | nil => trivial
  | cons joint below ih =>
      cases joint with
      | other => exact ih h hChanged
      | region visit =>
          rw [visits_region] at hChanged
          exact ⟨fun _ => hChanged visit List.mem_cons_self,
            ih h.2 fun visit hMem => hChanged visit (List.mem_cons_of_mem _ hMem)⟩
      | unwinding payload => exact ih h hChanged
      | resuming payload => exact ih h hChanged
      | guarding => exact h

/-- Less is asked of a raise that is not on its way. -/
theorem Footed.mono {other : Bool} (h : Footed joints raising place parked)
    (hOther : other = true → raising = true) :
    Footed joints other place parked := by
  induction joints generalizing raising other with
  | nil => trivial
  | cons joint below ih =>
      cases joint with
      | other => exact ih h hOther
      | region visit => exact ⟨fun hTrue => h.1 (hOther hTrue), ih h.2 hOther⟩
      | unwinding payload =>
          refine ih h fun hTrue => ?_
          rw [Bool.or_eq_true] at hTrue ⊢
          exact hTrue.imp_left hOther
      | resuming payload =>
          refine ih h fun hTrue => ?_
          rw [Bool.or_eq_true] at hTrue ⊢
          exact hTrue.imp_left hOther
      | guarding => exact h

private theorem Footed.landed (h : Footed joints raising place parked) :
    Footed joints false place parked :=
  h.mono fun hTrue => by cases hTrue

/-- Nothing is asked where no record is in flight or parked. -/
theorem footed_none (joints : List Joint) (raising : Bool) :
    Footed joints raising none [] := by
  induction joints generalizing raising with
  | nil => trivial
  | cons joint below ih =>
      cases joint with
      | region visit => exact ⟨fun _ _ hNone => (by cases hNone), ih _⟩
      | _ => exact ih _

/-- Only the payload decides it. -/
theorem isRaise_unwinds (payload : Payload) :
    (Course.unwinds payload).isRaise = decide (payload = .raise) := by
  cases payload <;> rfl

/-- A shift keeps the record in flight above what the regions found, if a raise puts it
above that. A mild deed leaves the records where they are, so only the other deeds need
an argument. -/
theorem Shift.footed {closing : Option Extent} {deed : Deed} {before after : List Joint}
    {course next : Course} {active left top : Nat}
    (hShift : Shift closing deed before course active after next left)
    (hTop : ∀ visit ∈ before.filterMap Joint.visit?, visit.entry.exceptions ≤ top)
    (h : Footed before course.isRaise place parked) :
    Footed after next.isRaise (deed.lays top place parked).1
      (deed.lays top place parked).2 := by
  have stays {closing : Option Extent} {deed : Deed} (hMild : deed.IsMild closing)
    {joints : List Joint} {raising : Bool}
    (h : Footed joints raising place parked) :
      Footed joints raising (deed.lays top place parked).1
        (deed.lays top place parked).2 := by
    cases deed <;> first | exact h | exact hMild.elim
  induction hShift with
  | runs isMild => exact stays isMild h
  | waits _ ih => exact ih hTop h
  | pauses _ ih => exact ih hTop h
  | pops isMild => exact stays isMild h
  | goesOn => exact h
  | ends => exact h
  | drops isMild => exact stays isMild h
  | enters isProtected => exact ⟨fun hTrue => (by cases hTrue), h⟩
  | leaves => exact h.2
  | @raises deed joints active isRaise =>
      have hRaised : Footed joints true (some top) parked := by
        refine h.replace fun visit hMem index hIndex => ?_
        cases hIndex
        exact hTop visit hMem
      cases deed with
      | raises kind message origin => exact hRaised
      | forwards exception => exact hRaised
      | _ => exact isRaise.elim
  | panics isMild isPanic =>
      exact stays isMild (h.mono (by rw [isRaise_unwinds]; simp [isPanic]))
  | passes => exact h
  | passesRegion => exact h.2
  | @overtakes joints other payload =>
      have hOther :
          Footed joints ((Course.unwinds payload).isRaise || decide (other = .raise))
          place parked := h
      refine hOther.mono fun hTrue => ?_
      rw [hTrue]
      rfl
  | holds =>
      rw [isRaise_unwinds] at h
      exact h
  | releases isHeld =>
      rw [isRaise_unwinds]
      obtain rfl | rfl := isHeld <;> exact h
  | resumes =>
      rw [isRaise_unwinds]
      exact h
  | catches => exact h.landed
  | stopsRaise => exact h.landed
  | defersRaise => exact h
  | stopsPanic isPanic => exact h.landed
  | defersPanic isPanic =>
      rw [isRaise_unwinds] at h
      exact h
  | shields => exact h
  | unshields => exact h
  | halts isMild => exact stays isMild h.landed
  | loses isMild isTop =>
      refine stays isMild ?_
      obtain rfl | ⟨payload, rfl⟩ := isTop
      · exact h.landed
      · exact Footed.landed h

end

/-- What a deed does to the record in flight and to those that are parked. A region that
is left may move the record in flight down to where its own records began, or give it
back. -/
theorem Deed.Turns.lays {deed : Deed} {before after : Entries} {ledger : List Extent}
    (hTurns : deed.Turns before after) (hNested : Nested .thread ledger before)
    (hFits : deed.Fits ledger) :
    after.parked = (deed.lays before.records.length before.inFlight before.parked).2 ∧
      (after.inFlight =
        (deed.lays before.records.length before.inFlight before.parked).1 ∨
        ∀ index, after.inFlight = some index →
          ∃ visit unwinding fate, deed = .leaves visit unwinding fate ∧
            index = visit.entry.exceptions) := by
  cases hTurns with
  | quiet isQuiet => cases deed <;> first | exact ⟨rfl, .inl rfl⟩ | exact isQuiet.elim
  | annotates => exact ⟨rfl, .inl rfl⟩
  | @enters _ visit state number measured =>
      refine ⟨?_, .inl rfl⟩
      simp only [Entries.parked]
      split <;> rfl
  | @leaves _ visit unwinding fate frame frames isFramed count =>
      refine ⟨congrArg (List.map Prod.snd) (hNested.parkings_leave fate hFits), ?_⟩
      simp only [Entries.leave, Deed.lays, flightAfter]
      cases before.inFlight with
      | none => exact .inl rfl
      | some place =>
          dsimp only
          split
          · exact .inl rfl
          · split
            · refine .inr fun index hIndex => ⟨visit, unwinding, fate, rfl, ?_⟩
              cases hIndex
              rfl
            · exact .inr fun index hIndex => by cases hIndex
  | @abandons _ visit above below isFramed count =>
      refine ⟨?_, ?_⟩
      · simp only [Entries.parked, hNested.dispatch_abandon hFits, Deed.lays]
      · simp only [Entries.abandon, Deed.lays, flightAfter]
        cases before.inFlight with
        | none => exact .inl rfl
        | some place =>
            dsimp only
            split
            · exact .inl rfl
            · exact .inr fun index hIndex => by cases hIndex
  | catches innermost inFlight found =>
      exact ⟨rfl, .inr fun index hIndex => by cases hIndex⟩
  | reports innermost => exact ⟨rfl, .inr fun index hIndex => by cases hIndex⟩
  | handles innermost marked own =>
      exact ⟨congrArg (List.map Prod.snd) (hNested.parkings_handle hFits marked).symm,
        .inl rfl⟩
  | raises isCaught => exact ⟨rfl, .inl rfl⟩
  | forwards isCaught => exact ⟨rfl, .inl rfl⟩
  | opensScope number => exact ⟨rfl, .inl rfl⟩
  | shields => exact ⟨rfl, .inl rfl⟩
  | unshields marked =>
      simp only [Entries.parked, marked]
      exact ⟨rfl, .inl rfl⟩
  | entersCall measured => exact ⟨rfl, .inl rfl⟩
  | leavesCall isFramed count => exact ⟨rfl, .inl rfl⟩

/-! ## Runs -/

section

variable {ν : Type} {m : Machine ν} {ledger : List Extent}

/-- The state of a machine in a run that closes in turn: its stacks are nested, the
regions that code waits in are open, and the record in flight lies above what they
found. -/
structure Footing (m : Machine ν) (ledger : List Extent) : Prop where
  stands : Stands m ledger
  woven : Woven m.joints ledger
  footed : ∀ context, m.context = some context →
    Footed m.joints m.focus.course.isRaise context.entries.inFlight
      context.entries.parked

/-- A step keeps the record in flight where it belongs. -/
theorem Footing.step (h : Footing m ledger) (hTurn : m.InTurn ledger)
    (hGoesOn : m.step.poisoned = false) :
    Footing m.step (m.move.apply ledger) := by
  have hDid := Machine.did_step h.stands.clear hGoesOn
  have hShift := Machine.shift_step h.stands.clear hGoesOn
  have hFits := h.stands.fits hTurn
  have hWoven := hShift.woven hFits hTurn.closing h.woven
  refine ⟨h.stands.step hTurn hGoesOn, hDid.move ▸ hWoven, fun after hAfter => ?_⟩
  have hActs := hDid.acts
  rw [Machine.entries?_some hAfter] at hActs
  generalize hBefore : m.entries? = before at hActs
  generalize hEntries : after.entries = entries at hActs
  generalize hDeed : m.deed = deed at hActs
  cases hActs with
  | opens => exact footed_none _ _
  | @turns _ before _ hTurns =>
      obtain ⟨context, hContext, rfl⟩ := Machine.exists_of_entries? hBefore
      have hNested := h.stands.nested context hContext
      rw [← hDeed] at hTurns
      obtain ⟨hParked, hPlace⟩ := hTurns.lays hNested hFits
      have hTop (visit : Visit) (hMem : visit ∈ m.joints.filterMap Joint.visit?) :
          visit.entry.exceptions ≤ context.entries.records.length :=
        hNested.entry_le visit (h.woven.subset hMem)
      have hFooted := hShift.footed hTop (h.footed context hContext)
      rw [hParked]
      obtain hSame | hMoved := hPlace
      · rw [hSame]
        exact hFooted
      · refine hFooted.replace fun visit hMem index hIndex => ?_
        obtain ⟨left, unwinding, fate, hLeaves, rfl⟩ := hMoved index hIndex
        rw [hLeaves] at hFits hWoven
        refine hNested.entry_le_left hFits visit ?_
        exact ((List.tail_sublist ledger).filterMap _).subset (hWoven.subset hMem)

/-- What a region catches was raised after it was entered. -/
theorem Footing.catches {context : Context} {visit : Visit} {exception : Exception}
    {index : Nat} (h : Footing m ledger) (hGoesOn : m.step.poisoned = false)
    (hContext : m.context = some context) (hDeed : m.deed = .catches visit exception)
    (hIndex : context.entries.inFlight = some index) :
    visit.entry.exceptions ≤ index := by
  have hFooted := h.footed context hContext
  obtain ⟨hCourse, below, hJoints⟩ :=
    (Machine.shift_step h.stands.clear hGoesOn).of_catches hDeed
  rw [hJoints, hCourse] at hFooted
  exact hFooted.1 rfl index hIndex

/-- A program starts on firm ground: no region is open, and nothing is in flight. -/
theorem footing_start (process : Process) (auto : Bool) (limits : Option Limits)
    (body : List (Stmt ν)) :
    Footing (Machine.start process auto limits body)
      (Machine.start process auto limits body).opened where
  stands := stands_start process auto limits body
  woven := by
    obtain hJoints | hJoints :=
      Machine.joints_start process auto limits body <;> rw [hJoints] <;>
      exact List.nil_sublist _
  footed := by
    intro context hContext
    rw [(Machine.start_fresh process auto limits body).2.2 context hContext]
    exact footed_none _ _

end

end Unwinding
