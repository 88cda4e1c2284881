import Unwinding.Proofs.Books

/-!
# What an operation does, whatever it finds

The laws of `Books` say what an operation does to stacks that are in order. A law about
every run, also of a program that leaves records behind, has to know what an operation
does to the stacks as it finds them. For each operation there is one such law here: if
it answers, then the entries of the context have changed in this way.

The entries of a context are listed as the laws use them: marks and frames with the
innermost one first, and records with the oldest one first, because a record in flight
is named by its place among them.

## Main results

* `effect_enter`, `effect_leave`, `effect_abandon` — regions.
* `effect_catchInFlight`, `effect_claimEscape`, `effect_beginHandling`, `effect_raise`,
  `effect_forward` — exceptions.
* `effect_openScope`, `effect_closeScope`, `effect_shield`, `effect_popShield` — guard
  scopes and their bodies.
* `effect_enterCall`, `effect_leaveCall` — traced calls.
-/

namespace Unwinding

open Context

/-- What the stacks of a context hold, which record is in flight, and the next
number. -/
structure Entries where
  regions : List Region
  dispatch : List Dispatch
  frames : List Frame
  /-- The records, oldest first. -/
  records : List Record
  inFlight : Option Nat
  nextId : Nat

/-- The entries of a context, without the nodes that its stacks keep and without their
limits. -/
def Context.entries (context : Context) : Entries where
  regions := context.regions.live
  dispatch := context.dispatch.live
  frames := context.frames.live
  records := context.records.toList
  inFlight := context.inFlight
  nextId := context.nextId

/-! ## Records that are released -/

section

variable {α β : Type}

/-- What is left of a list when its entries from a depth on are released, but for the
one in flight if it is kept.

The one in flight then lies right above the depth, wherever it was before. -/
def released (inFlight : Option Nat) (depth : Nat) (keep : Bool) (entries : List α) :
    List α :=
  match inFlight with
  | none => entries.take depth
  | some index =>
      if depth ≤ index ∧ keep = true then entries.take depth ++
        entries[index]?.toList else entries.take depth

/-- The place of the entry in flight afterwards. -/
def flightAfter (inFlight : Option Nat) (depth : Nat) (keep : Bool) : Option Nat :=
  match inFlight with
  | none => none
  | some index =>
      if index < depth then some index else if keep = true then some depth else none

/-- What is done to every record commutes with a release, which only goes by the number
of records. -/
theorem map_released (f : α → β) (inFlight : Option Nat) (depth : Nat) (keep : Bool)
    (entries : List α) :
    (released inFlight depth keep entries).map f =
      released inFlight depth keep (entries.map f) := by
  unfold released
  cases inFlight with
  | none => exact List.map_take
  | some index =>
      dsimp only
      split
      · rw [List.map_append, List.map_take, List.getElem?_map]
        cases entries[index]? <;> rfl
      · exact List.map_take

/-- What lies below the depth is not touched. -/
theorem take_released {inFlight : Option Nat} {depth floor : Nat} {keep : Bool}
    {entries : List α} (hFloor : floor ≤ depth) (hLong : depth ≤ entries.length) :
    (released inFlight depth keep entries).take floor = entries.take floor := by
  have hTake : (entries.take depth).take floor = entries.take floor := by
    rw [List.take_take, Nat.min_eq_left hFloor]
  unfold released
  cases inFlight with
  | none => exact hTake
  | some index =>
      dsimp only
      split
      · rw [List.take_append_of_le_length (by rw [List.length_take]; omega), hTake]
      · exact hTake

/-- A release never takes away a record below the depth it goes down to. -/
theorem le_length_released {inFlight : Option Nat} {depth : Nat} {keep : Bool}
    {entries : List α} (hLong : depth ≤ entries.length) :
    depth ≤ (released inFlight depth keep entries).length := by
  have hTake : (entries.take depth).length = depth := by
    rw [List.length_take, Nat.min_eq_left hLong]
  unfold released
  cases inFlight with
  | none => exact Nat.le_of_eq hTake.symm
  | some index =>
      dsimp only
      split
      · rw [List.length_append]
        omega
      · exact Nat.le_of_eq hTake.symm

/-- An entry in flight that is kept is found where it is afterwards said to be. -/
theorem getElem?_released {index depth : Nat} {entries : List α} {entry : α}
    (hEntry : entries[index]? = some entry) :
    ∃ place, flightAfter (some index) depth true = some place ∧
      (released (some index) depth true entries)[place]? = some entry := by
  unfold flightAfter released
  dsimp only
  by_cases hLow : index < depth
  · refine ⟨index, if_pos hLow, ?_⟩
    rw [if_neg (by omega), List.getElem?_take_of_lt hLow]
    exact hEntry
  · refine ⟨depth, by rw [if_neg hLow]; rfl, ?_⟩
    obtain ⟨hLong, -⟩ := List.getElem?_eq_some_iff.1 hEntry
    have hTake : (entries.take depth).length = depth := by rw [List.length_take]; omega
    rw [if_pos ⟨by omega, rfl⟩, hEntry, List.getElem?_append_right (by omega), hTake,
      Nat.sub_self]
    rfl

end

/-! ## Answers -/

variable {α : Type} {context after : Context}

/-- An operation that is known to end well ends with what is said of its answers. -/
theorem Ends.of_ok {outcome : EStateM.Result Error Context α}
    {answers : α → Context → Prop} {fails : Error → Prop} {answer : α}
    (h : Ends outcome answers fails) (hOk : outcome = .ok answer after) :
    answers answer after := by
  subst hOk
  exact h

/-- A law about an operation that answers: nothing is said about its failures.

Most of the operations can fail in several ways, and most laws do not care how. Those
that do use `Ends`. -/
def Yields (outcome : EStateM.Result Error Context α) (answers : α → Context → Prop) :
    Prop :=
  Ends outcome answers fun _ => True

/-- The entry at an index of a stack, counted from the bottom. -/
theorem Stack.getElem?_toList {stack : Stack α} {index : Nat} :
    stack.toList[index]? = stack.get? index := by
  have hDepth := stack.depth_eq
  unfold Stack.toList Stack.get?
  split
  · next hLt => rw [List.getElem?_reverse (by omega), hDepth]
  · next hLt => exact List.getElem?_eq_none (by rw [List.length_reverse]; omega)

/-- To truncate a stack keeps its bottom entries. -/
theorem Stack.toList_truncate (stack : Stack α) (depth : Nat) :
    (stack.truncate depth).toList = stack.toList.take depth := by
  have hDepth := stack.depth_eq
  unfold Stack.toList
  rw [Stack.live_truncate, Stack.bottom, hDepth, List.reverse_drop]
  by_cases hLe : depth ≤ stack.live.length
  · congr 1
    omega
  · rw [List.take_of_length_le (by rw [List.length_reverse]; omega),
      List.take_of_length_le (by rw [List.length_reverse]; omega)]

/-- The depth of a stack is the number of its entries. -/
theorem Stack.length_toList (stack : Stack α) : stack.toList.length = stack.depth := by
  rw [stack.depth_eq]
  exact List.length_reverse

/-- An entry that is pushed is the last one, counted from the bottom. -/
theorem Stack.toList_of_live {stack stack' : Stack α} {entry : α}
    (h : stack'.live = entry :: stack.live) :
    stack'.toList = stack.toList ++ [entry] := by
  unfold Stack.toList
  rw [h, List.reverse_cons]

/-- Keeping one record takes everything else from the depth on away. -/
theorem toList_keepOnly {records kept : Records} {depth index : Nat}
    (h : records.keepOnly depth index = .ok kept) :
    depth ≤ index ∧ kept.toList = records.toList.take depth ++
      records.toList[index]?.toList := by
  unfold Records.keepOnly at h
  split at h
  · cases h
  · next hBounds =>
      have hDepth : depth ≤ index ∧ index < records.depth := by omega
      refine ⟨hDepth.1, ?_⟩
      cases hTake : (records.truncate (index + 1)).take with
      | error e =>
          rw [hTake] at h
          cases h
      | ok taken =>
          obtain ⟨record, rest⟩ := taken
          rw [hTake] at h
          have hPush : (rest.truncate depth).push record = .ok kept := h
          have hAll : records.toList.take (index + 1) = rest.toList ++ [record] := by
            rw [← Stack.toList_truncate]
            exact Stack.toList_of_live (Stack.live_take hTake).1
          have hLength : rest.toList.length = index := by
            have hSize := congrArg List.length hAll
            rw [List.length_take, Stack.length_toList, List.length_append] at hSize
            simp only [List.length_singleton] at hSize
            omega
          have hRest : rest.toList = records.toList.take index := by
            have hCut := congrArg (List.take index) hAll
            rw [List.take_take, Nat.min_eq_left (Nat.le_succ index),
              List.take_append_of_le_length (by omega),
              List.take_of_length_le (Nat.le_of_eq hLength)] at hCut
            exact hCut.symm
          have hRecord : records.toList[index]? = some record := by
            have hFound := congrArg (fun list => list[index]?) hAll
            rw [List.getElem?_append_right (by omega), hLength, Nat.sub_self,
              List.getElem?_take_of_lt (Nat.lt_succ_self index)] at hFound
            exact hFound
          rw [Stack.toList_of_live (Stack.live_push hPush).1, Stack.toList_truncate,
            hRest, hRecord, List.take_take, Nat.min_eq_left hDepth.1]
          rfl

/-! ## Parts of operations -/

/-- The innermost region is the one that is moved. -/
theorem effect_setState {visit : Visit} {state : RegionState} :
    Yields (setState visit state context) fun _ after =>
      ∃ region rest, context.entries.regions = region :: rest ∧ region.visit.id =
        visit.id ∧
        after.entries = { context.entries with regions := ⟨region.visit, state⟩ :: rest
          } := by
  refine ends_bind (ends_get ?_)
  cases hLive : context.regions.live with
  | nil =>
      have hTop : context.regions.top? = none := by rw [Stack.top?, hLive]; rfl
      rw [hTop]
      exact ends_fail trivial
  | cons region rest =>
      rw [Stack.top?_of_live hLive]
      by_cases hId : region.visit.id = visit.id
      · simp only [if_pos hId]
        refine ends_bind (ends_note (ends_modify ⟨region, rest, hLive, hId, ?_⟩))
        simp only [Context.entries, Stack.modifyTop, hLive, List.modifyHead_cons]
      · simp only [if_neg hId]
        exact ends_fail trivial

/-- The records above a depth are released, except for one that is in flight. -/
theorem effect_releaseRecords {depth : Nat} {keep : Bool} :
    Yields (releaseRecords depth keep context) fun _ after =>
      after.entries = { context.entries with
        records := released context.inFlight depth keep context.entries.records
        inFlight := flightAfter context.inFlight depth keep } := by
  refine ends_bind (ends_get ?_)
  have hTruncate (inFlight : Option Nat) :
      ({ context with records := context.records.truncate depth, inFlight } :
        Context).entries =
        { context.entries with records := context.entries.records.take depth, inFlight
          } := by
    simp only [Context.entries, Stack.toList_truncate]
  cases hFlight : context.inFlight with
  | none =>
      refine ends_onRecords (fun records hOk => ?_) fun _ _ => trivial
      cases hOk
      simpa [released, flightAfter, hFlight] using hTruncate none
  | some index =>
      dsimp only
      by_cases hLow : index < depth
      · rw [if_pos hLow]
        refine ends_onRecords (fun records hOk => ?_) fun _ _ => trivial
        cases hOk
        have hNot : ¬ (depth ≤ index ∧ keep = true) := by omega
        simp only [released, flightAfter, if_neg hNot, if_pos hLow]
        simpa only [hFlight] using hTruncate (some index)
      · rw [if_neg hLow]
        cases keep with
        | false =>
            refine ends_bind
              (ends_modify (ends_onRecords (fun records hOk => ?_) fun _ _ => trivial))
            cases hOk
            simpa [released, flightAfter, hLow] using hTruncate none
        | true =>
            refine ends_bind (ends_onRecords (fun records hOk => ends_modify ?_)
              fun _ _ => trivial)
            obtain ⟨hDepth, hKept⟩ := toList_keepOnly hOk
            simp [Context.entries, released, flightAfter, hLow, hDepth, hKept]

/-- Every record that still needs a frame above a depth takes a copy of what it
needs. -/
theorem effect_detachAbove {depth : Nat} :
    Yields (detachAbove depth context) fun _ after =>
      after.entries = { context.entries with
        records :=
          context.entries.records.map fun record =>
          record.settle depth context.entries.frames } := by
  refine ends_modify ?_
  simp only [Context.entries, Stack.toList, live_detachAbove, List.map_reverse]

/-- Cutting the frames back leaves so many of them. -/
theorem effect_reconcileFrames {depth : Nat} :
    Yields (reconcileFrames depth context) fun _ after =>
      ∃ above below, context.entries.frames = above ++ below ∧ below.length = depth ∧
        after.entries = { context.entries with frames := below } := by
  refine ends_bind
    (ends_get (ends_bind (ends_get (ends_bind (ends_ofExcept ?_ fun _ _ => trivial)))))
  rintro ⟨outcome, frames⟩ hOk
  have hCut : ∃ above below, context.frames.live = above ++ below ∧
      below.length = depth ∧ frames.live = below := by
    have hDepth := context.frames.depth_eq
    unfold Frames.reconcile at hOk
    split at hOk
    · cases hOk
    · next hEnough =>
        split at hOk
        · next hEqual =>
            cases hOk
            exact ⟨[], context.frames.live, rfl, by omega, rfl⟩
        · next hMore =>
            have hCount :
                (context.frames.live.drop (context.frames.depth - depth)).length =
                depth := by
              rw [List.length_drop]
              omega
            cases hTop : context.frames.top? with
            | none =>
                have hNil : context.frames.live = [] := List.head?_eq_none_iff.1 hTop
                have hZero : context.frames.depth = 0 := by rw [hDepth, hNil]; rfl
                omega
            | some innermost =>
                rw [hTop] at hOk
                cases hOk
                exact ⟨_, _,
                  (List.take_append_drop (context.frames.depth - depth) _).symm, hCount,
                  rfl⟩
  obtain ⟨above, below, hLive, hLength, hFrames⟩ := hCut
  have hDone (context' : Context) (hSame : context'.entries = context.entries) :
      ∃ above below, context.entries.frames = above ++ below ∧ below.length = depth ∧
        ({ context' with frames } : Context).entries =
          { context.entries with frames := below } := by
    refine ⟨above, below, hLive, hLength, ?_⟩
    rw [← hSame, ← hFrames]
    rfl
  cases outcome with
  | balanced => exact ends_modify (hDone _ rfl)
  | repaired count innermost => exact ends_bind (ends_note (ends_modify (hDone _ rfl)))

private theorem effect_leaveFrame :
    Yields (onFrames Frames.leave context) fun _ after =>
      ∃ frame rest, context.entries.frames = frame :: rest ∧ after.entries =
        { context.entries with frames := rest } := by
  refine ends_onFrames (fun frames hOk => ?_) fun _ _ => trivial
  unfold Frames.leave at hOk
  cases hPop : context.frames.pop with
  | error e =>
      rw [hPop] at hOk
      cases hOk
  | ok popped =>
      rw [hPop] at hOk
      cases hOk
      exact ⟨popped.1, popped.2.live, (Stack.live_pop hPop).1, rfl⟩

/-- The escape that a region has to report is no entry of a stack. To take it changes
none of them. -/
theorem effect_takeEscape {owner : Nat} :
    Yields (takeEscape owner context) fun _ after => after.entries =
      context.entries := by
  refine ends_bind (ends_get ?_)
  cases context.escapes with
  | nil => exact ends_pure rfl
  | cons escape older =>
      dsimp only
      split
      · exact ends_bind (ends_modify (ends_pure rfl))
      · exact ends_pure rfl

private theorem effect_popMark {f : Dispatch → Prop}
    (hTop : ∃ mark rest, context.dispatch.live = mark :: rest ∧ f mark) :
    Yields (onDispatch (fun dispatch => dispatch.pop.map Prod.snd) context)
      fun _ after =>
      ∃ mark rest, context.entries.dispatch = mark :: rest ∧ f mark ∧
        after.entries = { context.entries with dispatch := rest } := by
  obtain ⟨mark, rest, hLive, hMark⟩ := hTop
  refine ends_onDispatch (fun dispatch hOk => ?_) fun _ _ => trivial
  obtain ⟨popped, hPop, hPopped⟩ := Stack.pop_of_live hLive
  rw [hPop] at hOk
  cases hOk
  exact ⟨mark, rest, hLive, hMark, by simp only [Context.entries, hPopped]⟩

/-- A region that ends drops its own dispatch mark, if it has one. -/
theorem effect_dropDispatch {visit : Visit} :
    Yields (dropDispatch visit context) fun _ after =>
      after.entries =
        { context.entries with dispatch := dropOwn visit context.entries.dispatch
        } := by
  refine ends_bind (ends_get ?_)
  cases hLive : context.dispatch.live with
  | nil =>
      have hTop : context.dispatch.top? = none := by rw [Stack.top?, hLive]; rfl
      rw [hTop]
      refine ends_pure ?_
      simp only [Context.entries, hLive, dropOwn]
  | cons mark rest =>
      rw [Stack.top?_of_live hLive]
      dsimp only
      by_cases hOwn : (!visit.explicit && mark.owner == visit.id) = true
      · rw [if_pos hOwn]
        refine (effect_popMark (f := fun _ => True) ⟨mark, rest, hLive, trivial⟩).imp
          fun _ after hAfter => ?_
        obtain ⟨found, left, hFound, -, hAfter⟩ := hAfter
        obtain ⟨rfl, rfl⟩ := List.cons.inj (hLive.symm.trans hFound)
        rw [hAfter]
        simp only [Context.entries, hLive, dropOwn, if_pos hOwn]
      · rw [if_neg hOwn]
        refine ends_pure ?_
        simp only [Context.entries, hLive, dropOwn, if_neg hOwn]

/-! ## Regions -/

/-- A region is entered on top of what was there, and remembers how much that was. -/
theorem effect_enter {site : Site} {explicit : Bool} :
    Yields (enter site explicit context) fun visit after =>
      visit = ⟨context.nextId, site, context.depths, explicit⟩ ∧
        ∃ state, after.entries = { context.entries with
          regions := ⟨visit, state⟩ :: context.entries.regions
          dispatch :=
            if explicit = true then context.entries.dispatch else .region visit.id ::
            context.entries.dispatch
          frames := ⟨site, ""⟩ :: context.entries.frames
          nextId := context.nextId + 1 } := by
  refine ends_bind (ends_get (ends_bind (ends_freshId ?_)))
  refine ends_bind (ends_onRegions (fun regions hRegions => ?_) fun _ _ => trivial)
  have hRegions := (Stack.live_place hRegions).1
  cases explicit with
  | true =>
      refine ends_bind (ends_onFrames (fun frames hFrames => ?_) fun _ _ => trivial)
      have hFrames := Frames.live_enter hFrames
      refine ends_bind (ends_note (ends_pure ⟨rfl, .entered, ?_⟩))
      simp only [Context.entries, hRegions, hFrames, if_true]
  | false =>
      refine ends_bind (ends_onDispatch (fun dispatch hDispatch => ?_)
        fun _ _ => trivial)
      have hDispatch := (Stack.live_place hDispatch).1
      refine ends_bind (ends_onFrames (fun frames hFrames => ?_) fun _ _ => trivial)
      have hFrames := Frames.live_enter hFrames
      refine ends_bind
        (ends_note (ends_bind
        (effect_setState.imp fun _ after hAfter => ends_pure ⟨rfl, .dispatching, ?_⟩)))
      obtain ⟨region, rest, hFound, -, hAfter⟩ := hAfter
      obtain ⟨rfl, rfl⟩ := List.cons.inj (hRegions.symm.trans hFound)
      rw [hAfter]
      simp only [Context.entries, hDispatch, hFrames, if_false, Bool.false_eq_true]

/-- What is left when a region has been left: its marks and its frame are gone, and so
are its records but for one in flight; no record that is left needs a frame that went
away. -/
def Entries.leave (entries : Entries) (visit : Visit) (unwinding : Bool) : Entries :=
  { entries with
    regions := entries.regions.tail
    dispatch := dropOwn visit entries.dispatch
    frames := entries.frames.tail
    records :=
      (released entries.inFlight visit.entry.exceptions unwinding entries.records).map
      fun record => record.settle visit.entry.frames entries.frames
    inFlight := flightAfter entries.inFlight visit.entry.exceptions unwinding }

/-- The check at the end of a region: there are as many frames as there were at its
entry. -/
theorem effect_balance {visit : Visit} {unwinding : Bool} :
    Yields ((do
      let context ← get
      let carried := unwinding && context.inFlight == some visit.entry.exceptions
      let now := context.depths
      let exit := if carried then { now with exceptions := now.exceptions - 1 } else now
      unless (exit.mismatches visit.entry).isEmpty do
        fail (.regionUnbalanced visit.site visit.entry exit) : Step Unit) context)
          fun _ after =>
      after = context ∧ context.entries.frames.length = visit.entry.frames := by
  refine ends_bind (ends_get ?_)
  generalize hExit :
    (if (unwinding && context.inFlight == some visit.entry.exceptions) = true then
    { context.depths with exceptions := context.depths.exceptions - 1 } else
    context.depths) = exit
  by_cases hBalanced : (exit.mismatches visit.entry).isEmpty = true
  · simp only [hBalanced, if_true]
    refine ends_pure ⟨rfl, ?_⟩
    have hFrames : exit.frames = context.frames.live.length := by
      rw [← hExit, ← context.frames.depth_eq]
      split <;> rfl
    rw [← Depths.mismatches_isEmpty.1 hBalanced, hFrames]
    rfl
  · simp only [hBalanced]
    exact ends_fail trivial

/-- What leaving a region does once its escape is out of the way. -/
theorem effect_leaveEmptied {visit : Visit} {unwinding : Bool} :
    Yields ((do
      dropDispatch visit
      let entry := visit.entry
      releaseRecords entry.exceptions unwinding
      detachAbove entry.frames
      let top := (← get).regions.top?
      onRegions fun regions => regions.pop.map Prod.snd
      onFrames Frames.leave
      if let some region := top then
        note (.regionMoved region.visit.id region.visit.site region.state .outside)
      let context ← get
      let carried := unwinding && context.inFlight == some entry.exceptions
      let now := context.depths
      let exit := if carried then { now with exceptions := now.exceptions - 1 } else now
      unless (exit.mismatches entry).isEmpty do
        fail (.regionUnbalanced visit.site entry exit) : Step Unit) context)
          fun _ after =>
      ∃ frame frames, context.entries.frames = frame :: frames ∧ frames.length =
        visit.entry.frames ∧
        after.entries = context.entries.leave visit unwinding := by
  refine ends_bind (effect_dropDispatch.imp fun _ dropped hDropped => ?_)
  refine ends_bind (effect_releaseRecords.imp fun _ freed hFreed => ?_)
  refine ends_bind (effect_detachAbove.imp fun _ settled hSettled => ?_)
  have hFlight : dropped.inFlight = context.inFlight :=
    congrArg Entries.inFlight hDropped
  rw [hFreed, hDropped, hFlight] at hSettled
  refine ends_bind
    (ends_get (ends_bind (ends_onRegions (fun regions hPop => ?_) fun _ _ => trivial)))
  obtain ⟨region, hLive⟩ : ∃ region, settled.regions.live = region :: regions.live := by
    cases hPopped : settled.regions.pop with
    | error e =>
        rw [hPopped] at hPop
        cases hPop
    | ok popped =>
        rw [hPopped] at hPop
        cases hPop
        exact ⟨popped.1, (Stack.live_pop hPopped).1⟩
  rw [Stack.top?_of_live hLive]
  refine ends_bind (effect_leaveFrame.imp fun _ popped hPopped => ?_)
  obtain ⟨frame, frames, hFrames, hPopped⟩ := hPopped
  refine ends_bind (ends_note (effect_balance.imp fun _ after hAfter => ?_))
  obtain ⟨rfl, hCount⟩ := hAfter
  have hRegions : context.entries.regions = region :: regions.live :=
    (congrArg Entries.regions hSettled).symm.trans hLive
  have hSource : context.entries.frames = frame :: frames :=
    (congrArg Entries.frames hSettled).symm.trans hFrames
  have hLeft : frames.length = visit.entry.frames := by
    rw [← hCount]
    exact congrArg List.length (congrArg Entries.frames hPopped).symm
  refine ⟨frame, frames, hSource, hLeft, ?_⟩
  change popped.entries = _
  rw [hPopped]
  change { settled.entries with regions := regions.live, frames } = _
  rw [hSettled, Entries.leave, hRegions, hSource]
  rfl

/-- A region that is left was the innermost one, and its frame the only one above those
it found. Whether an escape was dropped with it only shows in the journal. -/
theorem effect_leave {visit : Visit} {unwinding : Bool} :
    Yields (leave visit unwinding context) fun _ after =>
      ∃ region outer frame frames, context.entries.regions = region :: outer ∧
        region.visit.id = visit.id ∧
        context.entries.frames = frame :: frames ∧ frames.length = visit.entry.frames ∧
        after.entries = context.entries.leave visit unwinding := by
  unfold leave
  refine ends_bind (effect_setState.imp fun _ moved hMoved => ?_)
  obtain ⟨region, outer, hRegions, hId, hMoved⟩ := hMoved
  refine ends_bind (effect_takeEscape.imp fun escape taken hTaken => ?_)
  have hStart :
      taken.entries =
      { context.entries with regions := ⟨region.visit, .cleanup⟩ :: outer } :=
    hTaken.trans hMoved
  have hDone (after : Context)
    (h : ∃ frame frames, taken.entries.frames = frame :: frames ∧ frames.length =
      visit.entry.frames ∧ after.entries = taken.entries.leave visit unwinding) :
      ∃ region outer frame frames, context.entries.regions = region :: outer ∧
        region.visit.id = visit.id ∧
        context.entries.frames = frame :: frames ∧ frames.length = visit.entry.frames ∧
        after.entries = context.entries.leave visit unwinding := by
    obtain ⟨frame, frames, hFrames, hLength, hAfter⟩ := h
    rw [hStart] at hFrames hAfter
    refine ⟨region, outer, frame, frames, hRegions, hId, hFrames, hLength,
      hAfter.trans ?_⟩
    rw [Entries.leave, Entries.leave, hRegions]
    rfl
  cases escape with
  | none => exact effect_leaveEmptied.imp fun _ after => hDone after
  | some escape =>
      exact ends_bind (ends_note (effect_leaveEmptied.imp fun _ after => hDone after))

/-- What is left when a region has been abandoned: all stacks are cut back to what it
found, and an exception of its own is in flight no more. -/
def Entries.abandon (entries : Entries) (visit : Visit) (frames : List Frame) :
    Entries :=
  { entries with
    regions := entries.regions.drop (entries.regions.length - visit.entry.regions)
    dispatch := entries.dispatch.drop (entries.dispatch.length - visit.entry.dispatch)
    frames
    records :=
      (released entries.inFlight visit.entry.exceptions false entries.records).map
      fun record => record.settle visit.entry.frames entries.frames
    inFlight := flightAfter entries.inFlight visit.entry.exceptions false }

/-- A region that is abandoned takes the frames above its entry with it, and leaves
everything else as if it had been left in passing. -/
theorem effect_abandon {visit : Visit} :
    Yields (abandon visit context) fun _ after =>
      ∃ above below, context.entries.frames = above ++ below ∧
        below.length = visit.entry.frames ∧
        after.entries = context.entries.abandon visit below := by
  unfold abandon
  refine ends_bind (ends_get (ends_bind (ends_note ?_)))
  refine ends_bind (effect_releaseRecords.imp fun _ freed hFreed => ?_)
  refine ends_bind (effect_detachAbove.imp fun _ settled hSettled => ?_)
  rw [hFreed] at hSettled
  refine ends_bind (ends_onRegions (fun regions hOk => ?_) fun _ _ => trivial)
  cases hOk
  refine ends_bind (ends_onDispatch (fun dispatch hOk => ?_) fun _ _ => trivial)
  cases hOk
  refine ends_bind (ends_onGuards (fun guards hOk => ?_) fun _ _ => trivial)
  cases hOk
  refine ends_bind (effect_reconcileFrames.imp fun _ cut hCut => ?_)
  obtain ⟨above, below, hFrames, hLength, hCut⟩ := hCut
  have hSource : context.entries.frames = above ++ below :=
    (congrArg Entries.frames hSettled).symm.trans hFrames
  have hRegions : settled.regions.live = context.entries.regions :=
    congrArg Entries.regions hSettled
  have hDispatch : settled.dispatch.live = context.entries.dispatch :=
    congrArg Entries.dispatch hSettled
  have hAfter : cut.entries = context.entries.abandon visit below := by
    rw [hCut]
    change { settled.entries with
      regions := settled.regions.live.drop (settled.regions.depth - visit.entry.regions)
      dispatch :=
        settled.dispatch.live.drop (settled.dispatch.depth - visit.entry.dispatch)
      frames := below } = _
    rw [settled.regions.depth_eq, settled.dispatch.depth_eq, hRegions, hDispatch,
      hSettled]
    rfl
  refine ends_bind (ends_get ?_)
  cases reporter? cut with
  | none => exact ends_fail trivial
  | some owner =>
      refine ends_bind (ends_get ?_)
      split
      · exact ends_note ⟨above, below, hSource, hLength, hAfter⟩
      · exact ends_modify ⟨above, below, hSource, hLength, hAfter⟩

/-! ## Exceptions -/

/-- A region catches the exception of the record in flight. -/
theorem effect_catchInFlight {visit : Visit} :
    Yields (catchInFlight visit context) fun exception after =>
      ∃ region outer index record, context.entries.regions = region :: outer ∧
        region.visit.id = visit.id ∧
        context.entries.inFlight = some index ∧ context.entries.records[index]? =
          some record ∧
        exception = record.against context.entries.frames ∧
        after.entries = { context.entries with
          regions := ⟨region.visit, .matching⟩ :: outer
          inFlight := none } := by
  refine ends_bind (effect_setState.imp fun _ moved hMoved => ?_)
  obtain ⟨region, outer, hRegions, hId, hMoved⟩ := hMoved
  refine ends_bind (ends_get ?_)
  have hFlight : context.entries.inFlight = moved.inFlight :=
    (congrArg Entries.inFlight hMoved).symm
  have hRecords : context.entries.records = moved.records.toList :=
    (congrArg Entries.records hMoved).symm
  have hFrames : context.entries.frames = moved.frames.live :=
    (congrArg Entries.frames hMoved).symm
  cases hIndex : moved.inFlight with
  | none => exact ends_fail trivial
  | some index =>
      refine ends_bind (ends_modify (ends_bind (ends_get ?_)))
      cases hRecord : moved.records.get? index with
      | none =>
          exact ends_fail trivial
      | some record =>
          refine ends_bind
            (ends_get (ends_pure ⟨region, outer, index, record, hRegions, hId,
            hFlight.trans hIndex, ?_, ?_, ?_⟩))
          · rw [hRecords, Stack.getElem?_toList, hRecord]
          · rw [Record.toException_eq_against, hFrames]
          · change { moved.entries with inFlight := none } = _
            rw [hMoved]

private theorem effect_popDispatch {owner : Nat} {purpose : Purpose} :
    Yields (popDispatch owner purpose context) fun _ after =>
      ∃ mark rest, context.entries.dispatch = mark :: rest ∧ mark.owner = owner ∧
        mark.isGuard = decide (purpose = .guard) ∧
        after.entries = { context.entries with
          dispatch := rest
          inFlight :=
            match mark with
            | .region _ => context.inFlight
            | .guard _ parked => parked } := by
  refine ends_bind (ends_get ?_)
  cases hLive : context.dispatch.live with
  | nil =>
      have hTop : context.dispatch.top? = none := by rw [Stack.top?, hLive]; rfl
      rw [hTop]
      exact trivial
  | cons mark rest =>
      rw [Stack.top?_of_live hLive]
      dsimp only
      by_cases hMatch : mark.owner = owner ∧
        (if mark.isGuard = true then Purpose.guard else .region) = purpose
      · rw [if_pos hMatch]
        have hGuard : mark.isGuard = decide (purpose = .guard) := by
          rw [← hMatch.2]
          cases mark.isGuard <;> rfl
        refine ends_bind
          ((effect_popMark ⟨mark, rest, hLive,
          (Eq.refl mark : (fun found => mark = found) mark)⟩).imp
          fun _ popped hPopped => ?_)
        obtain ⟨found, left, hFound, rfl, hPopped⟩ := hPopped
        obtain ⟨-, rfl⟩ := List.cons.inj (hLive.symm.trans hFound)
        cases mark with
        | region owner => exact ends_pure ⟨_, rest, hLive, hMatch.1, hGuard, hPopped⟩
        | guard owner parked =>
            refine ends_modify ⟨_, rest, hLive, hMatch.1, hGuard, ?_⟩
            change { popped.entries with inFlight := parked } = _
            rw [hPopped]
      · rw [if_neg hMatch]
        exact ends_fail trivial

/-- A clause has matched: the dispatch mark of the region goes. -/
theorem effect_beginHandling {visit : Visit} :
    Yields (beginHandling visit context) fun _ after =>
      ∃ region outer mark rest, context.entries.regions = region :: outer ∧
        region.visit.id = visit.id ∧
        context.entries.dispatch = mark :: rest ∧ mark.owner = visit.id ∧
        after.entries = { context.entries with
          regions := ⟨region.visit, .handling⟩ :: outer
          dispatch := rest } := by
  refine ends_bind (effect_popDispatch.imp fun _ popped hPopped => ?_)
  obtain ⟨mark, rest, hDispatch, hOwner, hGuard, hPopped⟩ := hPopped
  refine effect_setState.imp fun _ after hAfter => ?_
  obtain ⟨region, outer, hRegions, hId, hAfter⟩ := hAfter
  cases mark with
  | guard owner parked => cases hGuard
  | region owner =>
      rw [hPopped] at hRegions hAfter
      exact ⟨region, outer, _, rest, hRegions, hId, hDispatch, hOwner, hAfter⟩

/-- A fresh record lies on top, points to the live frames, and is in flight. -/
def Entries.raise (entries : Entries) (kind : Kind) (message : String) (origin : Site) :
    Entries :=
  { entries with
    records := entries.records ++ [⟨kind, message, origin, .live entries.frames.length⟩]
    inFlight := some entries.records.length }

/-- A record on top of the others is in flight. -/
theorem entries_topped {records : Records} {record : Record}
    (h : records.live = record :: context.records.live) :
    ({ context with records, inFlight := some (records.depth - 1) } : Context).entries =
      { context.entries with
        records := context.entries.records ++ [record]
        inFlight := some context.entries.records.length } := by
  have hDepth : records.depth - 1 = context.records.toList.length := by
    rw [records.depth_eq, h, Stack.toList, List.length_reverse]
    rfl
  simp only [Context.entries, Stack.toList_of_live h, hDepth]

private theorem dispatch_ne_nil (h : context.hasHandler = true) :
    context.entries.dispatch ≠ [] := by
  intro hNil
  have hEmpty : context.dispatch.depth = 0 := by
    rw [context.dispatch.depth_eq]
    exact congrArg List.length hNil
  simp [hasHandler, Stack.isEmpty, hEmpty] at h

/-- A raise that something catches leaves its record in flight; one that nothing catches
is handed back. -/
theorem effect_raise {table : KindTable} {kind : Kind} {site : Site}
    {written : String} :
    Yields (raise table kind site written context) fun uncaught after =>
      (uncaught = none ∧ context.entries.dispatch ≠ [] ∧
        after.entries = context.entries.raise kind (messageOf table kind written)
          site) ∨
      ∃ exception, uncaught = some exception ∧
        exception =
          (⟨kind, messageOf table kind written, site,
          .live context.entries.frames.length⟩ : Record).against
          context.entries.frames := by
  refine ends_bind
    (ends_get
    (ends_bind (ends_onRecords (fun records hPlace => ?_) fun _ _ => trivial)))
  have hDepth : context.frames.depth = context.entries.frames.length :=
    context.frames.depth_eq
  have hLive := Records.live_raise hPlace
  rw [hDepth] at hLive
  refine ends_bind (ends_get ?_)
  split
  · next hHandler =>
      exact ends_bind
        (ends_modify
        (ends_pure (.inl ⟨rfl, dispatch_ne_nil hHandler, entries_topped hLive⟩)))
  · simp only [Context.current?, Stack.top?_of_live hLive, Option.map_some]
    refine ends_pure (.inr ⟨_, rfl, ?_⟩)
    rw [Record.toException_eq_against]
    rfl

/-- An exception from elsewhere is in flight with a record of its own, or is handed
back. -/
theorem effect_forward {exception : Exception} :
    Yields (forward exception context) fun uncaught after =>
      (uncaught = none ∧ context.entries.dispatch ≠ [] ∧
        after.entries = { context.entries with
          records := context.entries.records ++ [.ofException exception]
          inFlight := some context.entries.records.length }) ∨
      uncaught = some exception := by
  refine ends_bind (ends_get ?_)
  split
  · next hHandler =>
      refine ends_bind (ends_onRecords (fun records hPush => ?_) fun _ _ => trivial)
      have hLive := (Stack.live_push hPush).1
      exact ends_bind
        (ends_modify
        (ends_pure (.inl ⟨rfl, dispatch_ne_nil hHandler, entries_topped hLive⟩)))
  · exact ends_pure (.inr rfl)

/-- The body of a region has returned. An escape that the region has to report is raised
where it stands, and caught. -/
theorem effect_claimEscape {slots : Slots} {visit : Visit} :
    Yields (claimEscape slots visit context) fun answer after =>
      (answer = none ∧ after.entries = context.entries) ∨
      ∃ kind message origin region outer,
        answer =
          some ((⟨kind, message, origin, .live context.entries.frames.length⟩ :
          Record).against
          context.entries.frames) ∧
        context.entries.regions = region :: outer ∧ region.visit.id = visit.id ∧
        after.entries = { context.entries.raise kind message origin with
          regions := ⟨region.visit, .matching⟩ :: outer
          inFlight := none } := by
  refine ends_bind (effect_takeEscape.imp fun escape taken hTaken => ?_)
  cases escape with
  | none => exact ends_pure (.inl ⟨rfl, hTaken⟩)
  | some escape =>
      refine ends_bind
        (ends_get
        (ends_bind (ends_onRecords (fun records hPlace => ?_) fun _ _ => trivial)))
      have hTopped := entries_topped (Records.live_raise hPlace)
      have hFrames : taken.frames.depth = context.entries.frames.length := by
        rw [taken.frames.depth_eq]
        exact congrArg (List.length ∘ Entries.frames) hTaken
      rw [hTaken, hFrames] at hTopped
      refine ends_bind (ends_modify (ends_bind (ends_note ?_)))
      change { taken with records, inFlight := some (records.depth - 1) }.entries =
        context.entries.raise _ _ _ at hTopped
      generalize hStart : Context.mk _ _ _ _ _ _ _ _ _ _ _ = start
      have hEntries := (congrArg Context.entries hStart).symm.trans hTopped
      refine ends_bind
        (effect_catchInFlight.imp fun exception after hCaught => ends_pure (.inr ?_))
      obtain ⟨region, outer, index, record, hRegions, hId, hIndex, hRecord, hException,
          hAfter⟩ := hCaught
      rw [hEntries] at hRegions hIndex hRecord hException hAfter
      cases hIndex
      rw [Entries.raise, List.getElem?_concat_length] at hRecord
      obtain rfl := Option.some.inj hRecord
      exact ⟨_, _, _, region, outer, congrArg some hException, hRegions, hId, hAfter⟩

/-! ## Guard scopes -/

/-- A guard scope takes the next number, and puts nothing on a stack that the entries
show. -/
theorem effect_openScope {site : Site} :
    Yields (openScope site context) fun mark after =>
      mark = context.nextId ∧ after.entries =
        { context.entries with nextId := context.nextId + 1 } :=
  ends_bind
    (ends_freshId
    (ends_bind (ends_onGuards (fun _ _ => ends_pure ⟨rfl, rfl⟩) fun _ _ => trivial)))

/-- A guard scope that is left takes its mark away, and nothing else. -/
theorem effect_closeScope {mark : Nat} :
    Yields (closeScope mark context) fun _ after => after.entries =
      context.entries := by
  refine ends_bind (ends_get ?_)
  cases context.guards.top? with
  | none => exact trivial
  | some innermost =>
      dsimp only
      split
      · exact ends_onGuards (fun _ _ => rfl) fun _ _ => trivial
      · exact ends_fail trivial

/-- A guard body begins: what is in flight is parked. -/
theorem effect_shield {owner : Nat} :
    Yields (shield owner context) fun _ after =>
      after.entries = { context.entries with
        dispatch := .guard owner context.entries.inFlight :: context.entries.dispatch
        inFlight := none } := by
  refine ends_bind
    (ends_get (ends_bind (ends_onDispatch (fun dispatch hPlace => ends_modify ?_)
    fun _ _ => trivial)))
  simp only [Context.entries, (Stack.live_place hPlace).1]

/-- A guard body has returned: what it parked is in flight again. -/
theorem effect_popShield {owner : Nat} :
    Yields (popDispatch owner .guard context) fun _ after =>
      ∃ parked rest, context.entries.dispatch = .guard owner parked :: rest ∧
        after.entries = { context.entries with dispatch := rest, inFlight := parked
          } := by
  refine effect_popDispatch.imp fun _ after hAfter => ?_
  obtain ⟨mark, rest, hDispatch, hOwner, hGuard, hAfter⟩ := hAfter
  cases mark with
  | region owner => cases hGuard
  | guard found parked =>
      obtain rfl : found = owner := hOwner
      exact ⟨parked, rest, hDispatch, hAfter⟩

/-! ## Traced calls -/

/-- A traced call puts its frame on the frame stack and remembers how deep the stacks
were before. -/
theorem effect_enterCall {site : Site} :
    Yields (enterCall site context) fun entry after =>
      entry = context.depths ∧
        after.entries =
          { context.entries with frames := ⟨site, ""⟩ :: context.entries.frames } := by
  refine ends_bind
    (ends_get (ends_bind (ends_onFrames (fun frames hPlace => ends_pure ⟨rfl, ?_⟩)
    fun _ _ => trivial)))
  simp only [Context.entries, Frames.live_enter hPlace]

/-- A traced call is left: its frame goes, with those left over above it, and no record
needs one of them. -/
theorem effect_leaveCall {entry : Depths} {unwinding : Bool} :
    Yields (leaveCall entry unwinding context) fun _ after =>
      ∃ above below, context.entries.frames = above ++ below ∧
        below.length = entry.frames ∧
        after.entries = { context.entries with
          frames := below
          records :=
            context.entries.records.map fun record =>
            record.settle entry.frames context.entries.frames } := by
  refine ends_bind (effect_detachAbove.imp fun _ settled hSettled => ?_)
  refine ends_bind (effect_reconcileFrames.imp fun _ cut hCut => ?_)
  obtain ⟨above, own, hFrames, hLength, hCut⟩ := hCut
  refine ends_bind (effect_leaveFrame.imp fun _ popped hPopped => ?_)
  obtain ⟨frame, below, hOwn, hPopped⟩ := hPopped
  have hSource : context.entries.frames = above ++ own :=
    (congrArg Entries.frames hSettled).symm.trans hFrames
  obtain rfl : own = frame :: below := (congrArg Entries.frames hCut).symm.trans hOwn
  have hAfter : popped.entries = { context.entries with
      frames := below
      records :=
        context.entries.records.map fun record =>
        record.settle entry.frames context.entries.frames } := by
    rw [hPopped, hCut, hSettled]
  have hDone : ∃ above below, context.entries.frames = above ++ below ∧
    below.length = entry.frames ∧
      popped.entries = { context.entries with
        frames := below
        records :=
          context.entries.records.map fun record =>
          record.settle entry.frames context.entries.frames } :=
    ⟨above ++ [frame], below, by simpa using hSource, by simpa using hLength, hAfter⟩
  cases unwinding with
  | true => exact ends_pure hDone
  | false =>
      refine ends_bind (ends_get ?_)
      split
      · exact ends_pure hDone
      · exact ends_fail trivial

end Unwinding
