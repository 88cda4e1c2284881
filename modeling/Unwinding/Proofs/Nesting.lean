import Unwinding.Proofs.Deeds
import Unwinding.Proofs.WellFormed

/-!
# How the stacks nest

In a run that closes in turn, the marks on the stacks lie in the order of the ledger,
and a region gives back no record that was there when it was entered. This holds
whatever becomes of the records themselves, also where foreign code stops raises and
leaves their records behind, so less is said here than in `Layout`: `Layered` accounts
for the region stack and the dispatch stack, and for a number of records that nothing
above can reach, the `floor`.

A run is compared with a `Ground`, which is what the stacks held when it began. For a
whole thread that is nothing; for a guard body it is what the body found, and then the
law says that nothing below the body is touched.

## Main results

* `Machine.fits_deed` — in a run that closes in turn, a deed is about the innermost
  extent.
* `Nested.turns` — a deed keeps the stacks nested above the ground.
* `stands_of_reaches` — every state of such a run is nested.
-/

namespace Unwinding

open Context

/-! ## Deeds and the innermost extent -/

/-- A deed is about the innermost extent of a ledger. -/
def Deed.Fits (ledger : List Extent) : Deed → Prop
  | .closes => ledger.head? = some .thread
  | .leaves visit _ _ =>
      ledger.head? = some (.region visit) ∨ ∃ phase,
        ledger.head? = some (.protecting visit phase)
  | .abandons visit => ledger.head? = some (.region visit)
  | .catches visit _ => ledger.head? = some (.protecting visit .body)
  | .reports visit _ => ledger.head? = some (.protecting visit .body)
  | .handles visit exception _ =>
      ledger.head? = some (.protecting visit (.clauses exception))
  | .closesScope mark => ledger.head? = some (.scope mark)
  | .shields mark => ledger.head? = some (.scope mark)
  | .unshields mark => ledger.head? = some (.guardBody mark)
  | .leavesCall entry => ledger.head? = some (.call entry)
  | _ => True

namespace Machine

variable {ν : Type} {m : Machine ν} {ledger : List Extent}

private theorem fits_answering {α : Type} {step : Step α} {deed : α → Deed}
    (hDeed : ∀ answer, (deed answer).Fits ledger) :
    (m.answering step deed).Fits ledger := by
  unfold answering
  split
  · trivial
  · split
    · exact hDeed _
    · trivial

private theorem fits_closing (h : ledger.head? = some .thread) :
    m.closing.Fits ledger := by
  unfold closing
  split
  · trivial
  · exact h

private theorem fits_deedOf {stmt : Stmt ν} (hTurn : m.InTurn ledger)
    (hFocus : m.focus = .exec stmt) :
    (m.deedOf stmt).Fits ledger := by
  have hHead := hTurn.closing
  simp only [closing?, hFocus] at hHead
  unfold deedOf
  split
  · split <;> trivial
  · exact fits_answering fun _ => trivial
  · exact fits_answering fun _ => trivial
  · exact fits_answering fun _ => trivial
  · split
    · split
      · exact fits_answering fun _ => trivial
      · trivial
    · trivial
  · split
    · next hTake =>
        simp only [hTake] at hHead
        exact .inl (hHead _ rfl)
    · next hTake =>
        simp only [hTake] at hHead
        exact fits_closing (hHead _ rfl)
    · trivial
  · split <;> trivial
  · trivial
  · trivial

/-- What a machine is about to do concerns the innermost extent. -/
theorem fits_deed (hTurn : m.InTurn ledger) (hPoised : Poised m.focus ledger) :
    m.deed.Fits ledger := by
  have hHead := hTurn.closing
  have hHandler := hTurn.handler
  cases hFocus : m.focus with
  | exec stmt =>
      simp only [deed, hFocus]
      exact fits_deedOf hTurn hFocus
  | drop handle =>
      simp only [closing?, hFocus] at hHead
      simp only [deed, hFocus]
      cases handle with
      | thread => exact fits_closing (hHead _ rfl)
      | region visit inUnwinding =>
          dsimp only
          split
          · exact .inl (hHead _ rfl)
          · exact hHead _ rfl
      | call entry inUnwinding => exact hHead _ rfl
      | guards scope => trivial
  | leaveScope scope =>
      rw [hFocus] at hPoised
      obtain ⟨rest, rfl⟩ := hPoised
      simp only [deed, hFocus]
      split
      · rfl
      · split
        · rfl
        · trivial
  | deliver value =>
      simp only [closing?, hFocus] at hHead
      simp only [deed, hFocus]
      split
      · next hControl =>
          simp only [hControl] at hHead
          refine fits_answering fun escape => ?_
          cases escape with
          | none => trivial
          | some exception => exact hHead _ rfl
      · next hControl =>
          simp only [hControl] at hHead
          exact hHead _ rfl
      · next hControl =>
          simp only [hControl] at hHead
          exact fits_closing (hHead _ rfl)
      · trivial
  | unwind payload =>
      simp only [closing?, hFocus] at hHead
      simp only [endsHandler?, hFocus] at hHandler
      simp only [deed, hFocus]
      split
      · next hControl =>
          simp only [hControl] at hHead
          split
          · exact fits_answering fun _ => hHead _ rfl
          · exact .inr ⟨_, hHead _ rfl⟩
      · next hControl =>
          simp only [hControl] at hHandler
          obtain ⟨caught, hCaught⟩ := hHandler _ rfl
          exact .inr ⟨_, hCaught⟩
      · split <;> trivial
      · next hControl =>
          simp only [hControl] at hHead
          exact fits_closing (hHead _ rfl)
      · trivial
  | offer region exception =>
      rw [hFocus] at hPoised
      obtain ⟨rest, rfl⟩ := hPoised
      simp only [deed, hFocus]
      split
      · trivial
      · rfl
  | leave region outcome =>
      rw [hFocus] at hPoised
      obtain ⟨phase, rest, rfl⟩ := hPoised
      simp only [deed, hFocus]
      exact .inr ⟨phase, rfl⟩
  | write raising pieces =>
      simp only [deed, hFocus]
      split <;> trivial
  | next => simp only [deed, hFocus]; trivial
  | complete value => simp only [deed, hFocus]; trivial
  | forward exception => simp only [deed, hFocus]; trivial
  | stopped how => simp only [deed, hFocus]; trivial

end Machine

/-! ## Layers -/

/-- What the stacks hold when a run begins: the extents, the numbers of the regions, the
dispatch marks and the number of records, and a bound for the numbers of all marks.

A whole thread stands on a ground that is empty. A guard body is looked at from a ground
of its own, which holds whatever was open when it began and does not say what that
was. -/
structure Ground where
  ledger : List Extent
  regions : List Nat
  dispatch : List Dispatch
  floor : Nat
  next : Nat

namespace Ground

/-- A thread that has just been opened. -/
def thread : Ground :=
  ⟨[.thread], [], [], 0, 1⟩

/-- A ground ends with a thread or a guard body, and its marks have their numbers
already. -/
structure Firm (ground : Ground) : Prop where
  bottom : ∃ rest, ground.ledger = .thread :: rest ∨ ∃ mark,
    ground.ledger = .guardBody mark :: rest
  owners : ∀ mark ∈ ground.dispatch, mark.owner < ground.next

/-- The innermost extent of a ground is the thread or a guard body. -/
theorem Firm.top {ground : Ground} {top : Extent} {ledger : List Extent}
    (h : ground.Firm) (hLedger : top :: ledger = ground.ledger) :
    top = .thread ∨ ∃ mark, top = .guardBody mark := by
  obtain ⟨rest, hThread | ⟨mark, hBody⟩⟩ := h.bottom
  · exact .inl (List.cons.inj (hLedger.trans hThread)).1
  · exact .inr ⟨mark, (List.cons.inj (hLedger.trans hBody)).1⟩

/-- A thread that has nothing open is firm ground. -/
theorem firm_thread : thread.Firm :=
  ⟨⟨[], .inl rfl⟩, fun _ hMem => (nomatch hMem)⟩

end Ground

/-- The numbers on the region stack and the marks on the dispatch stack, for a ledger
above a ground, and how many records nothing that is open can reach. All numbers are
below `next`.

The shape of the frames and records is of no concern here. What counts are the numbers
on the marks, because those are what a step looks at to find that it is about the
innermost one. -/
inductive Layered (ground : Ground) : Nat → List Extent → List Nat → List Dispatch →
    Nat → Prop
  | ground {next : Nat} (isFree : ground.next ≤ next) :
      Layered ground next ground.ledger ground.regions ground.dispatch ground.floor
  | call {next : Nat} {ledger : List Extent} {regions : List Nat}
      {dispatch : List Dispatch} {floor : Nat} {entry : Depths}
      (below : Layered ground next ledger regions dispatch floor) :
      Layered ground next (.call entry :: ledger) regions dispatch floor
  | scope {next : Nat} {ledger : List Extent} {regions : List Nat}
      {dispatch : List Dispatch} {floor mark : Nat}
      (below : Layered ground next ledger regions dispatch floor)
      (isOld : mark < next) :
      Layered ground next (.scope mark :: ledger) regions dispatch floor
  | guardBody {next : Nat} {ledger : List Extent} {regions : List Nat}
      {dispatch : List Dispatch} {floor mark : Nat}
      {parked : Option Nat}
      (below : Layered ground next (.scope mark :: ledger) regions dispatch floor)
      (isOld : mark < next) :
      Layered ground next (.guardBody mark :: .scope mark :: ledger)
        regions (.guard mark parked :: dispatch) floor
  | region {next : Nat} {ledger : List Extent} {regions : List Nat}
      {dispatch : List Dispatch} {floor : Nat} {visit : Visit}
      (below : Layered ground visit.id ledger regions dispatch floor)
      (isOld : visit.id < next)
      (isExplicit : visit.explicit = true)
      (hRegions : visit.entry.regions = regions.length)
      (hDispatch : visit.entry.dispatch = dispatch.length)
      (hFloor : floor ≤ visit.entry.exceptions) :
      Layered ground next (.region visit :: ledger) (visit.id :: regions)
        dispatch visit.entry.exceptions
  | protecting {next : Nat} {ledger : List Extent} {regions : List Nat}
      {dispatch : List Dispatch} {floor : Nat}
      {visit : Visit} {phase : Phase}
      (below : Layered ground visit.id ledger regions dispatch floor)
      (isOld : visit.id < next) (isProtected : visit.explicit = false)
      (hFloor : floor ≤ visit.entry.exceptions) :
      Layered ground next (.protecting visit phase :: ledger) (visit.id :: regions)
        (phase.marks visit.id ++ dispatch) visit.entry.exceptions

namespace Layered

variable {ground : Ground} {next floor : Nat} {ledger : List Extent}
    {regions : List Nat} {dispatch : List Dispatch}

private theorem mono {higher : Nat}
    (h : Layered ground next ledger regions dispatch floor) (hLe : next ≤ higher) :
    Layered ground higher ledger regions dispatch floor := by
  induction h with
  | ground isFree => exact .ground (Nat.le_trans isFree hLe)
  | call below ih => exact .call (ih hLe)
  | scope below isOld ih => exact .scope (ih hLe) (Nat.lt_of_lt_of_le isOld hLe)
  | guardBody below isOld ih => exact .guardBody (ih hLe) (Nat.lt_of_lt_of_le isOld hLe)
  | region below isOld isExplicit hRegions hDispatch hFloor ih =>
      exact .region below (Nat.lt_of_lt_of_le isOld hLe) isExplicit hRegions hDispatch
        hFloor
  | protecting below isOld isProtected hFloor ih =>
      exact .protecting below (Nat.lt_of_lt_of_le isOld hLe) isProtected hFloor

/-- The floor only rises. -/
theorem floor_le (h : Layered ground next ledger regions dispatch floor) :
    ground.floor ≤ floor := by
  induction h with
  | ground isFree => exact Nat.le_refl _
  | call below ih => exact ih
  | scope below isOld ih => exact ih
  | guardBody below isOld ih => exact ih
  | region below isOld isExplicit hRegions hDispatch hFloor ih =>
      exact Nat.le_trans ih hFloor
  | protecting below isOld isProtected hFloor ih => exact Nat.le_trans ih hFloor

/-- Every dispatch mark has an owner whose number has been given out. -/
theorem owner_lt (h : Layered ground next ledger regions dispatch floor)
    (hFirm : ground.Firm) :
    ∀ mark ∈ dispatch, mark.owner < next := by
  induction h with
  | ground isFree =>
      exact fun mark hMem => Nat.lt_of_lt_of_le (hFirm.owners mark hMem) isFree
  | call below ih => exact ih
  | scope below isOld ih => exact ih
  | guardBody below isOld ih =>
      intro mark hMem
      rcases List.mem_cons.1 hMem with rfl | hUnder
      · exact isOld
      · exact ih mark hUnder
  | region below isOld isExplicit hRegions hDispatch hFloor ih =>
      exact fun mark hMem => Nat.lt_trans (ih mark hMem) isOld
  | @protecting _ _ _ _ _ visit phase below isOld isProtected hFloor ih =>
      intro mark hMem
      rcases List.mem_append.1 hMem with hOwn | hUnder
      · have hOwner : mark = .region visit.id := by
          cases phase <;> simp [Phase.marks] at hOwn <;> exact hOwn
        rw [hOwner]
        exact isOld
      · exact Nat.lt_trans (ih mark hUnder) isOld

/-- The ledger of the ground lies below everything else. -/
theorem suffix (h : Layered ground next ledger regions dispatch floor) :
    ∃ inner, ledger = inner ++ ground.ledger := by
  induction h with
  | ground isFree => exact ⟨[], rfl⟩
  | call below ih => exact ih.elim fun inner hInner => ⟨_ :: inner, by rw [hInner]; rfl⟩
  | scope below isOld ih =>
      exact ih.elim fun inner hInner => ⟨_ :: inner, by rw [hInner]; rfl⟩
  | guardBody below isOld ih =>
      exact ih.elim fun inner hInner => ⟨_ :: inner, by rw [hInner]; rfl⟩
  | region below isOld isExplicit hRegions hDispatch hFloor ih =>
      exact ih.elim fun inner hInner => ⟨_ :: inner, by rw [hInner]; rfl⟩
  | protecting below isOld isProtected hFloor ih =>
      exact ih.elim fun inner hInner => ⟨_ :: inner, by rw [hInner]; rfl⟩

/-- On the ground itself, the stacks hold what the ground says. What lies above the
ground makes the ledger longer than the ground, so no other case of the layers fits. -/
theorem of_ground (h : Layered ground next ground.ledger regions dispatch floor) :
    regions = ground.regions ∧ dispatch = ground.dispatch ∧ floor = ground.floor := by
  generalize hLedger : ground.ledger = whole at h
  have higher {top : Extent} {ledger : List Extent}
    (hWhole : ground.ledger = top :: ledger)
    (hSuffix : ∃ above, ledger = above ++ ground.ledger) : False := by
    obtain ⟨above, rfl⟩ := hSuffix
    have hLength := congrArg List.length hWhole
    rw [List.length_cons, List.length_append] at hLength
    omega
  cases h with
  | ground isFree => exact ⟨rfl, rfl, rfl⟩
  | call below => exact (higher hLedger below.suffix).elim
  | scope below isOld => exact (higher hLedger below.suffix).elim
  | guardBody below isOld => exact (higher hLedger below.suffix).elim
  | region below isOld isExplicit hRegions hDispatch hFloor =>
      exact (higher hLedger below.suffix).elim
  | protecting below isOld isProtected hFloor =>
      exact (higher hLedger below.suffix).elim

/-! Each extent on top of a ledger says how the rest is layered. -/

private theorem of_call {entry : Depths}
    (h : Layered ground next (.call entry :: ledger) regions dispatch floor)
    (hFirm : ground.Firm) : Layered ground next ledger regions dispatch floor := by
  generalize hLedger : Extent.call entry :: ledger = whole at h
  cases h with
  | ground isFree => obtain hTop | ⟨_, hTop⟩ := hFirm.top hLedger <;> cases hTop
  | call below =>
      cases hLedger
      exact below
  | _ => cases hLedger

/-- Below a guard scope lies what was there when it got its mark. -/
theorem of_scope {mark : Nat}
    (h : Layered ground next (.scope mark :: ledger) regions dispatch floor)
    (hFirm : ground.Firm) :
    Layered ground next ledger regions dispatch floor ∧ mark < next := by
  generalize hLedger : Extent.scope mark :: ledger = whole at h
  cases h with
  | ground isFree => obtain hTop | ⟨_, hTop⟩ := hFirm.top hLedger <;> cases hTop
  | scope below isOld =>
      cases hLedger
      exact ⟨below, isOld⟩
  | _ => cases hLedger

/-- Below an explicit region lies what was there when it was entered, and its entry
remembers how deep that was. -/
theorem of_region {visit : Visit}
    (h : Layered ground next (.region visit :: ledger) regions dispatch floor)
    (hFirm : ground.Firm) :
    ∃ under old, regions = visit.id :: under ∧
      Layered ground visit.id ledger under dispatch old ∧ visit.id < next ∧
        visit.explicit = true ∧
      visit.entry.regions = under.length ∧ visit.entry.dispatch = dispatch.length ∧
        old ≤ floor ∧
      floor = visit.entry.exceptions := by
  generalize hLedger : Extent.region visit :: ledger = whole at h
  cases h with
  | ground isFree => obtain hTop | ⟨_, hTop⟩ := hFirm.top hLedger <;> cases hTop
  | region below isOld isExplicit hRegions hDispatch hFloor =>
      cases hLedger
      exact ⟨_, _, rfl, below, isOld, isExplicit, hRegions, hDispatch, hFloor, rfl⟩
  | _ => cases hLedger

/-- Below a protected region lies what was there when it was entered. On top of that it
has its mark, and its dispatch mark while exceptions still come to it. -/
theorem of_protecting {visit : Visit} {phase : Phase}
    (h : Layered ground next (.protecting visit phase :: ledger) regions dispatch floor)
    (hFirm : ground.Firm) :
    ∃ under marks old, regions = visit.id :: under ∧ dispatch = phase.marks visit.id ++
      marks ∧
      Layered ground visit.id ledger under marks old ∧ visit.id < next ∧
        visit.explicit = false ∧ old ≤ floor ∧
      floor = visit.entry.exceptions := by
  generalize hLedger : Extent.protecting visit phase :: ledger = whole at h
  cases h with
  | ground isFree => obtain hTop | ⟨_, hTop⟩ := hFirm.top hLedger <;> cases hTop
  | protecting below isOld isProtected hFloor =>
      cases hLedger
      exact ⟨_, _, _, rfl, rfl, below, isOld, isProtected, hFloor, rfl⟩
  | _ => cases hLedger

/-- A guard body lies above its scope, or it is the ground. -/
theorem of_guardBody {mark : Nat}
    (h : Layered ground next (.guardBody mark :: ledger) regions dispatch floor) :
    ground.ledger = .guardBody mark :: ledger ∨ ∃ parked marks,
      dispatch = .guard mark parked :: marks ∧
      Layered ground next ledger regions marks floor ∧ ∃ outer,
        ledger = .scope mark :: outer := by
  generalize hLedger : Extent.guardBody mark :: ledger = whole at h
  cases h with
  | ground isFree => exact .inl rfl
  | guardBody below isOld =>
      cases hLedger
      exact .inr ⟨_, _, rfl, below, _, rfl⟩
  | _ => cases hLedger

/-- Below the context of the thread there is only the ground. -/
theorem of_thread (h : Layered ground next (.thread :: ledger) regions dispatch floor) :
    ground.ledger = .thread :: ledger := by
  generalize hLedger : Extent.thread :: ledger = whole at h
  cases h with
  | ground isFree => rfl
  | _ => cases hLedger

end Layered

/-- The stacks are layered, and the records that nothing can reach are there. -/
def Nested (ground : Ground) (ledger : List Extent) (entries : Entries) : Prop :=
  ∃ floor,
    Layered ground entries.nextId ledger
    (entries.regions.map fun region => region.visit.id) entries.dispatch floor ∧
    floor ≤ entries.records.length

/-! ## One deed -/

section

variable {ground : Ground} {ledger : List Extent} {before after : Entries} {deed : Deed}

private theorem nested_new : Nested .thread [.thread] .empty :=
  ⟨0, .ground (Nat.le_refl 1), Nat.zero_le _⟩

/-- A region that is left gives its marks back, and its records. -/
theorem Nested.leaves {visit : Visit} {unwinding : Bool}
    (h : Nested ground ledger before) (hFirm : ground.Firm)
    (hFits : (Deed.leaves visit unwinding .nothing).Fits ledger) :
    Nested ground ledger.tail (before.leave visit unwinding) := by
  obtain ⟨floor, hLayered, hFloor⟩ := h
  have hIds : (before.leave visit unwinding).regions.map
    (fun region => region.visit.id) =
      (before.regions.map fun region => region.visit.id).tail :=
        List.map_tail.symm ▸ rfl
  have hRecords {old : Nat} (hOld : old ≤ floor)
    (hEntry : floor = visit.entry.exceptions) :
      old ≤ (before.leave visit unwinding).records.length := by
    refine Nat.le_trans hOld ?_
    simp only [Entries.leave, List.length_map]
    rw [hEntry] at hFloor ⊢
    exact le_length_released hFloor
  obtain hRegion | ⟨phase, hProtecting⟩ := hFits
  · obtain ⟨rest, rfl⟩ := List.head?_eq_some_iff.1 hRegion
    obtain ⟨under, old, hRegions, hBelow, hId, hExplicit, -, -, hOld, hEntry⟩ :=
      hLayered.of_region hFirm
    refine ⟨old, ?_, hRecords hOld hEntry⟩
    rw [hIds, hRegions]
    have hDispatch : (before.leave visit unwinding).dispatch = before.dispatch :=
      dropOwn_of_explicit _ hExplicit
    rw [hDispatch]
    exact hBelow.mono (Nat.le_of_lt hId)
  · obtain ⟨rest, rfl⟩ := List.head?_eq_some_iff.1 hProtecting
    obtain ⟨under, marks, old, hRegions, hDispatch, hBelow, hId, hProtected, hOld,
        hEntry⟩ := hLayered.of_protecting hFirm
    refine ⟨old, ?_, hRecords hOld hEntry⟩
    rw [hIds, hRegions]
    have hLeft : (before.leave visit unwinding).dispatch = marks := by
      change dropOwn visit before.dispatch = marks
      rw [hDispatch]
      exact dropOwn_marks phase hProtected (hBelow.owner_lt hFirm)
    rw [hLeft]
    exact hBelow.mono (Nat.le_of_lt hId)

/-- A region that is abandoned lay on top of everything else, so nothing but its own
mark and its records goes. -/
theorem Nested.abandons {visit : Visit} (h : Nested ground ledger before)
    (hFirm : ground.Firm) (hFits : (Deed.abandons visit).Fits ledger)
    (frames : List Frame) :
    Nested ground ledger.tail (before.abandon visit frames) := by
  obtain ⟨floor, hLayered, hFloor⟩ := h
  obtain ⟨rest, rfl⟩ := List.head?_eq_some_iff.1 hFits
  obtain ⟨under, old, hRegions, hBelow, hId, -, hCount, hMarks, hOld, hEntry⟩ :=
    hLayered.of_region hFirm
  have hTop : before.regions.length - visit.entry.regions = 1 := by
    have hLength := congrArg List.length hRegions
    rw [List.length_map, List.length_cons] at hLength
    omega
  have hIds : (before.abandon visit frames).regions.map
      (fun region => region.visit.id) = under := by
    simp only [Entries.abandon, hTop, List.map_drop, hRegions, List.drop_succ_cons,
      List.drop_zero]
  have hDispatch : (before.abandon visit frames).dispatch = before.dispatch := by
    simp only [Entries.abandon, hMarks, Nat.sub_self, List.drop_zero]
  refine ⟨old, ?_, ?_⟩
  · rw [hIds, hDispatch]
    exact hBelow.mono (Nat.le_of_lt hId)
  · refine Nat.le_trans hOld ?_
    simp only [Entries.abandon, List.length_map]
    rw [hEntry] at hFloor ⊢
    exact le_length_released hFloor

/-- A region that is entered is numbered anew, and remembers how many records there
were. -/
theorem Nested.enters {visit : Visit} {state : RegionState} {frames : List Frame}
    (h : Nested ground ledger before) (hNumber : visit.id = before.nextId)
    (hMeasured : before.Measured visit.entry) :
    Nested ground (entered visit.explicit visit :: ledger) { before with
      regions := ⟨visit, state⟩ :: before.regions
      dispatch :=
        if visit.explicit = true then before.dispatch else .region visit.id ::
        before.dispatch
      frames
      nextId := before.nextId + 1 } := by
  obtain ⟨floor, hLayered, hFloor⟩ := h
  rw [← hNumber] at hLayered
  have hOld : visit.id < before.nextId + 1 := by rw [hNumber]; exact Nat.lt_succ_self _
  refine ⟨visit.entry.exceptions, ?_, Nat.le_of_eq hMeasured.exceptions⟩
  rw [← hMeasured.exceptions] at hFloor
  unfold entered
  cases hExplicit : visit.explicit with
  | true =>
      simp only [if_true, List.map_cons]
      exact .region hLayered hOld hExplicit
        (hMeasured.regions.trans (List.length_map _).symm) hMeasured.dispatch hFloor
  | false =>
      simp only [Bool.false_eq_true, if_false, List.map_cons]
      have hBody :
        Layered ground (before.nextId + 1) (.protecting visit .body :: ledger) _
          (Phase.marks visit.id .body ++ before.dispatch) visit.entry.exceptions :=
            .protecting hLayered hOld hExplicit hFloor
      exact hBody

/-- A protected region goes on to another phase, with the dispatch marks of that
phase. -/
theorem Nested.phase {visit : Visit} {old new : Phase} {rest : List Extent}
    {region : Region} {outer : List Region} {state : RegionState}
    {dispatch : List Dispatch}
    (h : Nested ground (.protecting visit old :: rest) before) (hFirm : ground.Firm)
    (hRegions : before.regions = region :: outer)
    (hDispatch : ∀ marks, before.dispatch = old.marks visit.id ++ marks →
      dispatch = new.marks visit.id ++ marks)
    (hRecords : before.records.length ≤ after.records.length)
    (hAfter : after.regions = ⟨region.visit, state⟩ :: outer)
    (hMarks : after.dispatch = dispatch) (hNext : after.nextId = before.nextId) :
    Nested ground (.protecting visit new :: rest) after := by
  obtain ⟨floor, hLayered, hFloor⟩ := h
  obtain ⟨under, marks, below, hIds, hBefore, hBelow, hId, hProtected, hOld, hEntry⟩ :=
    hLayered.of_protecting hFirm
  have hSame : (after.regions.map fun region => region.visit.id) =
      visit.id :: under := by
    rw [← hIds, hAfter, hRegions]
    rfl
  refine ⟨floor, ?_, Nat.le_trans hFloor hRecords⟩
  rw [hSame, hMarks, hDispatch marks hBefore, hNext, hEntry]
  exact .protecting hBelow hId hProtected (hEntry ▸ hOld)

/-- A deed keeps the stacks nested above the ground, unless it ends the guard body that
is the ground. -/
theorem Nested.turns (h : Nested ground ledger before) (hFirm : ground.Firm)
    (hTurns : deed.Turns before after) (hFits : deed.Fits ledger)
    (hStays : ∀ mark, deed = .unshields mark → ledger ≠ ground.ledger) :
    Nested ground (deed.move.apply ledger) after := by
  cases hTurns with
  | quiet isQuiet =>
      cases deed with
      | closesScope mark =>
          obtain ⟨rest, rfl⟩ := List.head?_eq_some_iff.1 hFits
          obtain ⟨floor, hLayered, hFloor⟩ := h
          exact ⟨floor, (hLayered.of_scope hFirm).1, hFloor⟩
      | rests => exact h
      | declines exception => exact h
      | recalls name => exact h
      | stops => exact h
      | _ => exact isQuiet.elim
  | annotates => exact h
  | enters number measured => exact h.enters number measured
  | leaves isFramed count => exact h.leaves hFirm hFits
  | abandons isFramed count => exact h.abandons hFirm hFits _
  | @catches _ visit region outer index record innermost inFlight found =>
      obtain ⟨rest, rfl⟩ := List.head?_eq_some_iff.1 hFits
      exact h.phase hFirm innermost (fun _ hMarks => hMarks) (Nat.le_refl _) rfl rfl rfl
  | @reports _ visit region outer kind message origin innermost =>
      obtain ⟨rest, rfl⟩ := List.head?_eq_some_iff.1 hFits
      refine h.phase hFirm innermost (fun _ hMarks => hMarks) ?_ rfl rfl rfl
      simp only [Entries.raise, List.length_append]
      omega
  | @handles _ visit exception name region outer mark marks innermost marked own =>
      obtain ⟨rest, rfl⟩ := List.head?_eq_some_iff.1 hFits
      refine h.phase hFirm innermost (fun others hMarks => ?_) (Nat.le_refl _)
        rfl rfl rfl
      exact (List.cons.inj (marked.symm.trans hMarks)).2
  | raises isCaught =>
      obtain ⟨floor, hLayered, hFloor⟩ := h
      refine ⟨floor, hLayered, ?_⟩
      simp only [Entries.raise, List.length_append]
      omega
  | forwards isCaught =>
      obtain ⟨floor, hLayered, hFloor⟩ := h
      refine ⟨floor, hLayered, ?_⟩
      simp only [List.length_append]
      omega
  | opensScope number =>
      obtain ⟨floor, hLayered, hFloor⟩ := h
      exact ⟨floor, .scope (hLayered.mono (Nat.le_succ _))
        (number ▸ Nat.lt_succ_self _), hFloor⟩
  | shields =>
      obtain ⟨rest, rfl⟩ := List.head?_eq_some_iff.1 hFits
      obtain ⟨floor, hLayered, hFloor⟩ := h
      exact ⟨floor, .guardBody hLayered (hLayered.of_scope hFirm).2, hFloor⟩
  | @unshields _ mark parked marks marked =>
      obtain ⟨rest, rfl⟩ := List.head?_eq_some_iff.1 hFits
      obtain ⟨floor, hLayered, hFloor⟩ := h
      obtain hGround | ⟨_, others, hDispatch, hBelow, -⟩ := hLayered.of_guardBody
      · exact absurd hGround.symm (hStays mark rfl)
      · obtain ⟨-, rfl⟩ := List.cons.inj (marked.symm.trans hDispatch)
        exact ⟨floor, hBelow, hFloor⟩
  | entersCall measured =>
      obtain ⟨floor, hLayered, hFloor⟩ := h
      exact ⟨floor, .call hLayered, hFloor⟩
  | @leavesCall _ entry above below isFramed count =>
      obtain ⟨rest, rfl⟩ := List.head?_eq_some_iff.1 hFits
      obtain ⟨floor, hLayered, hFloor⟩ := h
      refine ⟨floor, hLayered.of_call hFirm, ?_⟩
      rw [List.length_map]
      exact hFloor

end

/-! ## Runs -/

section

variable {ν : Type} {m : Machine ν} {ledger : List Extent}

/-- The state of a machine in a run that closes in turn: it knows what it is in the
middle of, and the stacks of its thread are nested.

This is all that is known of a run in turn on which no other condition is put. It does
not need the record in flight to be there. -/
structure Stands (m : Machine ν) (ledger : List Extent) : Prop where
  clear : m.poisoned = false
  poised : Poised m.focus ledger
  closed : m.context = none → ledger = []
  nested : ∀ context, m.context = some context → Nested .thread ledger context.entries

/-- In a run in turn, what a step does to the stacks fits the ledger. -/
theorem Stands.fits (h : Stands m ledger) (hTurn : m.InTurn ledger) :
    m.deed.Fits ledger :=
  Machine.fits_deed hTurn h.poised

/-- A destructor begins with the stacks as they are. -/
theorem Stands.destruct {payload : Payload} {body : List (Stmt ν)}
    (h : Stands m ledger) :
    Stands (m.destruct payload body) ledger :=
  ⟨h.clear, trivial, h.closed, h.nested⟩

/-- A guard body that is open runs above its scope. -/
theorem Stands.seated (h : Stands m ledger) : Seated ledger := by
  intro mark rest hLedger
  cases hContext : m.context with
  | none => cases hLedger.symm.trans (h.closed hContext)
  | some context =>
      obtain ⟨floor, hLayered, -⟩ := h.nested context hContext
      rw [hLedger] at hLayered
      obtain hGround | ⟨_, _, _, _, outer, hRest⟩ := hLayered.of_guardBody
      · cases hGround
      · exact ⟨outer, hRest⟩

/-- A deed on a context that is there changes its entries. -/
theorem Stands.turns {context : Context} (h : Stands m ledger)
    (hContext : m.context = some context) (hOpen : m.deed ≠ .closes)
    (hGoesOn : m.step.poisoned = false) :
    ∃ after, m.step.context = some after ∧
      m.deed.Turns context.entries after.entries := by
  have hActs := (Machine.did_step h.clear hGoesOn).acts
  rw [Machine.entries?_some hContext] at hActs
  generalize hDeed : m.deed = deed at hActs hOpen
  generalize hAfter : m.step.entries? = after at hActs
  cases hActs with
  | turns hTurns =>
      obtain ⟨left, hLeft, rfl⟩ := Machine.exists_of_entries? hAfter
      exact ⟨left, hLeft, hTurns⟩
  | closes => exact absurd rfl hOpen

/-- The ledger and the stacks after a step. -/
theorem Stands.nested_after {deed : Deed} {after : Option Entries} (h : Stands m ledger)
    (hActs : deed.Acts m.entries? after) (hFits : deed.Fits ledger) :
    (after = none → deed.move.apply ledger = []) ∧
      ∀ entries, after = some entries →
        Nested .thread (deed.move.apply ledger) entries := by
  generalize hBefore : m.entries? = before at hActs
  cases hActs with
  | @turns _ before next hTurns =>
      obtain ⟨context, hContext, rfl⟩ := Machine.exists_of_entries? hBefore
      refine ⟨fun hNone => (nomatch hNone), fun entries hSome => ?_⟩
      cases hSome
      refine (h.nested context hContext).turns Ground.firm_thread hTurns hFits
        fun mark hDeed hGround => ?_
      subst hDeed hGround
      cases hFits
  | quiet isQuiet =>
      obtain rfl := h.closed (Option.map_eq_none_iff.1 hBefore)
      refine ⟨fun _ => ?_, fun _ hSome => (nomatch hSome)⟩
      cases deed <;> first | rfl | exact isQuiet.elim
  | opens =>
      obtain rfl := h.closed (Option.map_eq_none_iff.1 hBefore)
      refine ⟨fun hNone => (nomatch hNone), fun entries hSome => ?_⟩
      cases hSome
      exact nested_new
  | closes =>
      refine ⟨fun _ => ?_, fun _ hSome => (nomatch hSome)⟩
      obtain ⟨rest, rfl⟩ := List.head?_eq_some_iff.1 hFits
      cases hContext : m.context with
      | none => cases h.closed hContext
      | some context =>
          obtain ⟨floor, hLayered, -⟩ := h.nested context hContext
          exact (List.cons.inj hLayered.of_thread).2.symm

/-- A step with a deed that fits the ledger keeps the stacks nested, if the machine
knows afterwards what it is in the middle of. -/
theorem Stands.keeps (h : Stands m ledger) (hFits : m.deed.Fits ledger)
    (hGoesOn : m.step.poisoned = false)
    (hPoised : Poised m.step.focus (m.move.apply ledger)) :
    Stands m.step (m.move.apply ledger) := by
  have hDid := Machine.did_step h.clear hGoesOn
  obtain ⟨hNone, hSome⟩ := h.nested_after hDid.acts hFits
  rw [← hDid.move] at hNone hSome
  refine ⟨hGoesOn, hPoised, fun hContext => ?_, fun context hContext => ?_⟩
  · exact hNone (by rw [Machine.entries?, hContext]; rfl)
  · exact hSome _ (Machine.entries?_some hContext)

/-- One step in turn keeps the stacks nested as the ledger says. -/
theorem Stands.step (h : Stands m ledger) (hTurn : m.InTurn ledger)
    (hGoesOn : m.step.poisoned = false) :
    Stands m.step (m.move.apply ledger) := by
  have hDid := Machine.did_step h.clear hGoesOn
  refine h.keeps (h.fits hTurn) hGoesOn ?_
  rw [hDid.move]
  exact hDid.poised ledger hTurn h.poised h.seated

/-- A program starts with its stacks as nested as its ledger says. -/
theorem stands_start (process : Process) (auto : Bool) (limits : Option Limits)
    (body : List (Stmt ν)) :
    Stands (Machine.start process auto limits body)
      (Machine.start process auto limits body).opened := by
  have hSound := sound_start False process auto limits body
  refine ⟨hSound.clear, hSound.poised, fun hContext => ?_, fun context hContext => ?_⟩
  · rw [Machine.opened, hContext]
    rfl
  · rw [(Machine.start_fresh process auto limits body).2.2 context hContext,
      Machine.opened, hContext]
    exact nested_new

/-- Every state of a run that closes in turn is nested. -/
theorem stands_of_reaches {start : Machine ν} {opened : List Extent}
    (h : Reaches Machine.InTurn start opened m ledger) (hStart : Stands start opened) :
    Stands m ledger := by
  induction h with
  | start => exact hStart
  | step before isAllowed goesOn ih => exact ih.step isAllowed goesOn

end

end Unwinding
