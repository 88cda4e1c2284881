import Unwinding.Proofs.Flight
import Unwinding.Proofs.Heights
import Unwinding.Proofs.Room

/-!
# Leaving a region

On stacks that are as high as what is open says, the innermost region can be left: its
mark and its frame are there to be removed, the record in flight has its place, and the
check at the end finds the depths that the region found, one record on top aside that is
in flight when the region is left by an unwinding.

Each part of leaving is taken for itself (`Alters`): what it does to the entries, that
it leaves the guard scopes alone, and what it may fail for. Only a full stack could stop
a record from moving down, and a stack has room for what was on it.

## Main results

* `released_cases` — none of the records of a region is left, or one that is in flight.
* `leaves_of_aligned` — a region that lies on aligned stacks can be left, and finds the
  heights it found.
-/

namespace Unwinding

open Context

/-! ## Records -/

section

variable {α : Type} {inFlight : Option Nat} {depth : Nat} {keep : Bool}
    {entries : List α}

/-- When entries are released from a depth on, none of them is left, or one that is in
flight and moves down to that depth. -/
theorem released_cases (hDepth : depth ≤ entries.length)
    (hFlight : ∀ index, inFlight = some index → index < entries.length) :
    (flightAfter inFlight depth keep ≠ some depth ∧
      (released inFlight depth keep entries).length = depth) ∨
      (keep = true ∧ flightAfter inFlight depth keep = some depth ∧
        (released inFlight depth keep entries).length = depth + 1 ∧
        ∃ index, inFlight = some index ∧ depth ≤ index) := by
  have hTake : (entries.take depth).length = depth := by
    rw [List.length_take, Nat.min_eq_left hDepth]
  unfold flightAfter released
  cases inFlight with
  | none => exact .inl ⟨by simp, hTake⟩
  | some index =>
      have hIndex := hFlight index rfl
      dsimp only
      by_cases hLow : index < depth
      · rw [if_pos hLow, if_neg (by omega)]
        exact .inl ⟨by simp; omega, hTake⟩
      · rw [if_neg hLow]
        cases keep with
        | false =>
            rw [if_neg (by simp), if_neg (by simp)]
            exact .inl ⟨by simp, hTake⟩
        | true =>
            refine .inr ⟨rfl, rfl, ?_, index, rfl, by omega⟩
            rw [if_pos ⟨by omega, rfl⟩, List.length_append, hTake,
              List.getElem?_eq_getElem hIndex]
            rfl

end

/-- A record that is there moves down unless the stack of records has no room. -/
theorem keepOnly_error {records : Records} {depth index : Nat} {error : Error}
    (hDepth : depth ≤ index) (hIndex : index < records.depth)
    (h : records.keepOnly depth index = .error error) : NoRoom error := by
  unfold Records.keepOnly at h
  rw [if_neg (by omega)] at h
  have hCut : (records.truncate (index + 1)).live.length = index + 1 := by
    rw [← Stack.depth_eq]
    exact Nat.min_eq_left hIndex
  obtain ⟨record, rest, hLive⟩ := List.exists_cons_of_length_eq_add_one hCut
  obtain ⟨taken, hTake, -⟩ := Stack.take_of_live hLive
  rw [hTake] at h
  exact Stack.push_error h

/-! ## Parts of leaving -/

/-- What an operation does to the entries, if it leaves the guard scopes alone. -/
def Alters {α : Type} (outcome : EStateM.Result Error Context α) (context : Context)
    (entries : Entries) (fails : Error → Prop) : Prop :=
  Ends outcome
    (fun _ after => after.entries = entries ∧ after.guards.depth = context.guards.depth)
    fails

section

variable {context : Context}

/-- An operation that is answered does what is known of it. -/
theorem alters_of_answers {α : Type} {step : Step α} {entries : Entries}
    {fails : Error → Prop} (hAnswers : Ends (step context) (fun _ _ => True) fails)
    (hEntries : Yields (step context) fun _ after => after.entries = entries)
    (hGuards : Yields (step context) fun _ after => after.guards.depth =
      context.guards.depth) :
    Alters (step context) context entries fails :=
  ((hAnswers.and_yields hEntries).and_yields hGuards).imp fun _ _ hAfter =>
    ⟨hAfter.1.2, hAfter.2⟩

private theorem alters_setState {visit : Visit} {state : RegionState} {region : Region}
    {outer : List Region} (hRegions : context.entries.regions = region :: outer)
    (hId : region.visit.id = visit.id) :
    Alters (setState visit state context)
      context { context.entries with regions := ⟨region.visit, state⟩ :: outer }
      fun _ => False := by
  refine alters_of_answers ((answers_setState hRegions hId).imp fun _ _ _ => trivial) ?_
    (guards_of_fills (takes_setState visit state))
  refine effect_setState.imp fun _ after hAfter => ?_
  obtain ⟨found, rest, hFound, -, hEntries⟩ := hAfter
  obtain ⟨rfl, rfl⟩ := List.cons.inj (hRegions.symm.trans hFound)
  exact hEntries

private theorem alters_takeEscape {owner : Nat} :
    Alters (takeEscape owner context) context context.entries fun _ => False := by
  refine alters_of_answers (ends_bind (ends_get ?_)) effect_takeEscape
    (guards_of_fills (takes_takeEscape owner))
  cases context.escapes with
  | nil => exact ends_pure trivial
  | cons escape older =>
      dsimp only
      split
      · exact ends_bind (ends_modify (ends_pure trivial))
      · exact ends_pure trivial

private theorem alters_dropDispatch {visit : Visit} :
    Alters (dropDispatch visit context)
      context { context.entries with dispatch := dropOwn visit context.entries.dispatch
      }
      fun _ => False := by
  refine alters_of_answers (ends_bind (ends_get ?_)) effect_dropDispatch
    (guards_of_empties (empties_dropDispatch (by simp)))
  cases hLive : context.dispatch.live with
  | nil =>
      rw [show context.dispatch.top? = none by rw [Stack.top?, hLive]; rfl]
      exact ends_pure trivial
  | cons mark rest =>
      rw [Stack.top?_of_live hLive]
      dsimp only
      split
      · obtain ⟨popped, hPop, -⟩ := Stack.pop_of_live hLive
        exact ends_onDispatch (fun _ _ => trivial) fun error hError => by
          rw [hPop] at hError; cases hError
      · exact ends_pure trivial

private theorem alters_releaseRecords {depth : Nat} {keep : Bool}
    (hFlight : ∀ index, context.inFlight = some index →
      index < context.entries.records.length) :
    Alters (releaseRecords depth keep context) context { context.entries with
      records := released context.inFlight depth keep context.entries.records
      inFlight := flightAfter context.inFlight depth keep } NoRoom := by
  have truncates {context : Context} :
    Ends (onRecords (fun records => .ok (records.truncate depth)) context)
      (fun _ _ => True) NoRoom :=
        ends_onRecords (fun _ _ => trivial) fun _ hError => by cases hError
  refine alters_of_answers (ends_bind (ends_get ?_)) effect_releaseRecords
    (guards_of_empties (empties_releaseRecords (by simp)))
  cases hPlace : context.inFlight with
  | none => exact truncates
  | some index =>
      dsimp only
      by_cases hLow : index < depth
      · rw [if_pos hLow]
        exact truncates
      · rw [if_neg hLow]
        have hIndex : index < context.records.depth := by
          rw [← Stack.length_toList]
          exact hFlight index hPlace
        cases keep with
        | false => exact ends_bind (ends_modify truncates)
        | true =>
            exact ends_bind (ends_onRecords (fun _ _ => ends_modify trivial)
              fun error hError =>
              keepOnly_error (Nat.le_of_not_lt hLow) hIndex hError)

private theorem alters_detachAbove {depth : Nat} :
    Alters (detachAbove depth context) context
      { context.entries with
        records := context.entries.records.map fun record =>
          record.settle depth context.entries.frames }
      fun _ => False :=
  alters_of_answers (ends_modify trivial) effect_detachAbove
    (guards_of_fills (takes_detachAbove depth))

private theorem alters_popRegion {region : Region} {outer : List Region}
    (hRegions : context.entries.regions = region :: outer) :
    Alters (onRegions (fun regions => regions.pop.map Prod.snd) context)
      context { context.entries with regions := outer }
      fun _ => False := by
  obtain ⟨popped, hPop, hLive⟩ :=
    Stack.pop_of_live (show context.regions.live = region :: outer from hRegions)
  refine ends_onRegions (fun regions hOk => ?_) fun error hError => by
    rw [hPop] at hError; cases hError
  rw [hPop] at hOk
  cases hOk
  exact ⟨by simp only [Context.entries, hLive], rfl⟩

private theorem alters_leaveFrame {frame : Frame} {frames : List Frame}
    (hFrames : context.entries.frames = frame :: frames) :
    Alters (onFrames Frames.leave context) context { context.entries with frames }
      fun _ => False := by
  obtain ⟨popped, hPop, hLive⟩ :=
    Stack.pop_of_live (show context.frames.live = frame :: frames from hFrames)
  refine ends_onFrames (fun left hOk => ?_) fun error hError => ?_
  · unfold Frames.leave at hOk
    rw [hPop] at hOk
    cases hOk
    exact ⟨by simp only [Context.entries, hLive], rfl⟩
  · unfold Frames.leave at hError
    rw [hPop] at hError
    cases hError

/-- The check at the end of a region, on stacks that are as high as the region found
them, but for one record in flight. -/
theorem answers_balance {visit : Visit} {unwinding : Bool}
    (hHeights : context.depths.heights = visit.entry.heights)
    (hRecords : context.inFlight ≠ some visit.entry.exceptions ∧
      context.entries.records.length = visit.entry.exceptions ∨
      unwinding = true ∧ context.inFlight = some visit.entry.exceptions ∧
        context.entries.records.length = visit.entry.exceptions + 1) :
    Ends ((do
      let context ← get
      let carried := unwinding && context.inFlight == some visit.entry.exceptions
      let now := context.depths
      let exit := if carried then { now with exceptions := now.exceptions - 1 } else now
      unless (exit.mismatches visit.entry).isEmpty do
        fail (.regionUnbalanced visit.site visit.entry exit) : Step Unit) context)
          (fun _ _ => True) fun _ => False := by
  refine ends_bind (ends_get ?_)
  have hCount := context.measured.exceptions
  obtain ⟨hOther, hLength⟩ | ⟨rfl, hPlace, hLength⟩ := hRecords
  · have hCarried : (unwinding && context.inFlight == some visit.entry.exceptions) =
        false := by simp [hOther]
    have hExit : context.depths = visit.entry :=
      Depths.eq_of_heights hHeights (hCount.trans hLength)
    simp only [hCarried, Bool.false_eq_true, if_false, hExit,
      Depths.mismatches_isEmpty.2, if_true]
    exact ends_pure trivial
  · have hExit :
        ({ context.depths with exceptions := context.depths.exceptions - 1 } : Depths) =
        visit.entry :=
      Depths.eq_of_heights hHeights
        (by change context.depths.exceptions - 1 = visit.entry.exceptions; omega)
    simp only [hPlace, beq_self_eq_true, Bool.and_self, if_true, hExit,
      Depths.mismatches_isEmpty.2]
    exact ends_pure trivial

/-- What leaving a region does once its escape is out of the way. -/
theorem answers_leaveEmptied {visit : Visit} {unwinding : Bool} {region : Region}
    {outer : List Region} {frame : Frame} {frames : List Frame}
    (hRegions : context.entries.regions = region :: outer)
    (hFrames : context.entries.frames = frame :: frames)
    (hHeights : (context.entries.leave visit unwinding).heights context.guards.depth =
      visit.entry.heights)
    (hRecords : visit.entry.exceptions ≤ context.entries.records.length)
    (hFlight : ∀ index, context.inFlight = some index →
      index < context.entries.records.length) :
    Ends ((do
      dropDispatch visit
      let entry := visit.entry
      releaseRecords entry.exceptions unwinding
      detachAbove entry.frames
      let top := (← get).regions.top?
      onRegions fun regions => regions.pop.map Prod.snd
      onFrames Frames.leave
      if let some region := top then
        note (.regionMoved region.visit.id region.visit.site region.state .outside)
      let context ← get
      let carried := unwinding && context.inFlight == some entry.exceptions
      let now := context.depths
      let exit := if carried then { now with exceptions := now.exceptions - 1 } else now
      unless (exit.mismatches entry).isEmpty do
        fail (.regionUnbalanced visit.site entry exit) : Step Unit) context)
          (fun _ _ => True) NoRoom := by
  refine ends_bind (alters_dropDispatch.mono (fun _ dropped hDropped => ?_)
    fun _ => False.elim)
  obtain ⟨hDropped, hScopes⟩ := hDropped
  have hBounded (index : Nat) (hPlace : dropped.inFlight = some index) :
      index < dropped.entries.records.length := by
    rw [hDropped]
    exact hFlight index ((congrArg Entries.inFlight hDropped).symm.trans hPlace)
  refine ends_bind ((alters_releaseRecords hBounded).imp fun _ freed hFreed => ?_)
  obtain ⟨hFreed, hFreedScopes⟩ := hFreed
  refine ends_bind (alters_detachAbove.mono (fun _ settled hSettled => ?_)
    fun _ => False.elim)
  obtain ⟨hSettled, hSettledScopes⟩ := hSettled
  have hInFlight : dropped.inFlight = context.inFlight :=
    congrArg Entries.inFlight hDropped
  rw [hFreed, hDropped, hInFlight] at hSettled
  refine ends_bind (ends_get ?_)
  have hInner : settled.entries.regions = region :: outer :=
    (congrArg Entries.regions hSettled).trans hRegions
  refine ends_bind ((alters_popRegion hInner).mono (fun _ popped hPopped => ?_)
    fun _ => False.elim)
  obtain ⟨hPopped, hPoppedScopes⟩ := hPopped
  have hFrame : popped.entries.frames = frame :: frames := by
    rw [hPopped, hSettled]
    exact hFrames
  refine ends_bind ((alters_leaveFrame hFrame).mono (fun _ left hLeft => ?_)
    fun _ => False.elim)
  obtain ⟨hLeft, hLeftScopes⟩ := hLeft
  have hEntries : left.entries = context.entries.leave visit unwinding := by
    rw [hLeft, hPopped, hSettled, Entries.leave, hRegions, hFrames]
    rfl
  have hGuards : left.guards.depth = context.guards.depth := by
    rw [hLeftScopes, hPoppedScopes, hSettledScopes, hFreedScopes, hScopes]
  rw [Stack.top?_of_live (show settled.regions.live = region :: outer from hInner)]
  refine ends_bind (ends_note ?_)
  refine (answers_balance ?_ ?_).mono (fun _ _ => id) fun _ => False.elim
  · rw [Context.heights_eq]
    change left.entries.heights left.guards.depth = visit.entry.heights
    rw [hEntries, hGuards, hHeights]
  · change left.inFlight ≠ some visit.entry.exceptions ∧ left.entries.records.length =
      visit.entry.exceptions ∨ unwinding = true ∧
      left.inFlight = some visit.entry.exceptions ∧ left.entries.records.length =
        visit.entry.exceptions + 1
    have hPlace :
        left.inFlight = flightAfter context.inFlight visit.entry.exceptions unwinding :=
      congrArg Entries.inFlight hEntries
    have hLength : left.entries.records.length =
        (released context.inFlight visit.entry.exceptions unwinding
          context.entries.records).length := by
      rw [hEntries]
      exact List.length_map _
    rw [hPlace, hLength]
    exact (released_cases hRecords hFlight).imp_right
      fun hMore => ⟨hMore.1, hMore.2.1, hMore.2.2.1⟩

/-- What a region that is left found lies on the stacks below it. -/
theorem Aligned.entry {visit : Visit} {unwinding : Bool} {fate : Fate}
    {ledger : List Extent} {entries : Entries} {scopes : Nat}
    (h : Aligned entries scopes ledger)
    (hFits : (Deed.leaves visit unwinding fate).Fits ledger) :
    visit.entry.heights = heights ledger.tail ∧ ∃ frame frames,
      entries.frames = frame :: frames := by
  have hFrames := h.frames
  obtain hRegion | ⟨phase, hProtecting⟩ := hFits
  · obtain ⟨rest, rfl⟩ := List.head?_eq_some_iff.1 hRegion
    exact ⟨h.recalled.1 visit.entry rfl, List.exists_cons_of_length_eq_add_one hFrames⟩
  · obtain ⟨rest, rfl⟩ := List.head?_eq_some_iff.1 hProtecting
    exact ⟨h.recalled.1 visit.entry rfl, List.exists_cons_of_length_eq_add_one hFrames⟩

/-- A region that is left is the innermost one. -/
theorem Nested.innermost {visit : Visit} {unwinding : Bool} {fate : Fate}
    {ledger : List Extent} {entries : Entries} (h : Nested .thread ledger entries)
    (hFits : (Deed.leaves visit unwinding fate).Fits ledger) :
    ∃ innermost outer, entries.regions = innermost :: outer ∧ innermost.visit.id =
      visit.id := by
  obtain ⟨floor, hLayered, -⟩ := h
  have hIds : ∃ under, (entries.regions.map fun region => region.visit.id) =
      visit.id :: under := by
    obtain hRegion | ⟨phase, hProtecting⟩ := hFits
    · obtain ⟨rest, rfl⟩ := List.head?_eq_some_iff.1 hRegion
      obtain ⟨under, _, hIds, -⟩ := hLayered.of_region Ground.firm_thread
      exact ⟨under, hIds⟩
    · obtain ⟨rest, rfl⟩ := List.head?_eq_some_iff.1 hProtecting
      obtain ⟨under, _, _, hIds, -⟩ := hLayered.of_protecting Ground.firm_thread
      exact ⟨under, hIds⟩
  obtain ⟨under, hIds⟩ := hIds
  obtain ⟨innermost, outer, hRegions, hId, -⟩ := List.map_eq_cons_iff.1 hIds
  exact ⟨innermost, outer, hRegions, hId⟩

/-- The innermost region of a run that closes in turn can be left, and the stacks are
then as high as it found them. Whether an escape was dropped with it only shows in the
journal. -/
theorem leaves_of_aligned {visit : Visit} {unwinding : Bool} {ledger : List Extent}
    {limits : Limits} (h : Aligned context.entries context.guards.depth ledger)
    (hNested : Nested .thread ledger context.entries) (hSized : context.Sized limits)
    (hFits : (Deed.leaves visit unwinding .nothing).Fits ledger)
    (hFlight : ∀ index, context.inFlight = some index →
      index < context.entries.records.length) :
    ∃ after, leave visit unwinding context = .ok () after ∧ after.entries =
      context.entries.leave visit unwinding ∧
      after.depths.heights = visit.entry.heights := by
  obtain ⟨hEntry, frame, frames, hFrames⟩ := h.entry hFits
  obtain ⟨innermost, outer, hRegions, hId⟩ := hNested.innermost hFits
  obtain ⟨-, hRecords⟩ := hNested.floor_le_entry Ground.firm_thread hFits
  have hHeights : (context.entries.leave visit unwinding).heights context.guards.depth =
      visit.entry.heights :=
    (h.leaves hNested hFits).counts.trans hEntry.symm
  have hEnds : Ends (leave visit unwinding context) (fun _ _ => True) NoRoom := by
    unfold leave
    refine ends_bind ((alters_setState hRegions hId).mono (fun _ moved hMoved => ?_)
      fun _ => False.elim)
    refine ends_bind (alters_takeEscape.mono (fun escape taken hTaken => ?_)
      fun _ => False.elim)
    obtain ⟨hTaken, hScopes⟩ := hTaken
    rw [hMoved.1] at hTaken
    rw [hMoved.2] at hScopes
    have hSame : taken.entries.leave visit unwinding =
        context.entries.leave visit unwinding := by
      rw [hTaken, Entries.leave, Entries.leave, hRegions]
      rfl
    have hInFlight : taken.inFlight = context.inFlight :=
      congrArg Entries.inFlight hTaken
    have hKept : taken.entries.records = context.entries.records := by rw [hTaken]
    rw [← hSame, ← hScopes] at hHeights
    rw [← hKept] at hRecords hFlight
    rw [← hInFlight] at hFlight
    have hTop : taken.entries.regions = ⟨innermost.visit, .cleanup⟩ :: outer :=
      congrArg Entries.regions hTaken
    have hFrame : taken.entries.frames = frame :: frames :=
      (congrArg Entries.frames hTaken).trans hFrames
    cases escape with
    | none => exact answers_leaveEmptied hTop hFrame hHeights hRecords hFlight
    | some escape =>
        exact ends_bind
          (ends_note (answers_leaveEmptied hTop hFrame hHeights hRecords hFlight))
  have hScopes : Yields (leave visit unwinding context)
      fun _ after => after.guards.depth = context.guards.depth :=
    guards_of_empties (empties_leave (by simp) (by simp) (by simp) (by simp))
  cases hLeave : leave visit unwinding context with
  | ok answer after =>
      obtain ⟨-, -, -, -, -, -, -, -, hAfter⟩ := effect_leave.of_ok hLeave
      refine ⟨after, rfl, hAfter, ?_⟩
      rw [Context.heights_eq, hAfter, hScopes.of_ok hLeave, hHeights]
  | error error left =>
      rw [hLeave] at hEnds
      exact absurd hEnds (hSized.leave_room hLeave)

end

end Unwinding
