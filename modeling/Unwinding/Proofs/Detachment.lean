import Unwinding.Proofs.Effects

/-!
# Records that outlive their frames

A record that points into the frame stack is cheap, but it lasts only as long as the
frames it points to. `Records.detachAbove` is called before frames go away: the records
that need one of them get a copy, and the others go on sharing. Nobody who asks a record
for its exception can tell which of the two it is, neither at once nor later, when the
places of the frames that went have been taken by other calls.

What happens to the frames later is a sequence of calls to the frame stack
(`Frames.Act`). The only thing asked of it is that in the end the oldest frames, up to
the depth in question, are what they were. A sequence that stays above that depth all
the way does so (`Frames.snapshot_acts`); one that goes below it and puts the same calls
back does so as well.

## Main results

* `Frames.snapshot_acts` : what stays above a depth leaves the frames below it alone.
* `Record.toException_settle_of_snapshot` : a settled record depends on the frames up to
  the depth only.
* `Records.detachAbove_unseen` : detaching is not seen, and makes every record
  independent of the frames above the depth.
-/

namespace Unwinding

/-! ## Later calls to the frame stack -/

namespace Frames

/-- A call to the frame stack that changes it. -/
inductive Act where
  | enter (site : Site)
  | leave
  | annotate (text : String)
  | reconcile (depth : Nat)
  deriving DecidableEq, Repr

/-- The frame stack after a call to it. A call that fails leaves it as it is. -/
def act (frames : Frames) : Act → Frames
  | .enter site => (frames.enter site).toOption.getD frames
  | .leave => frames.leave.toOption.getD frames
  | .annotate text => (frames.annotate text).2
  | .reconcile depth => ((frames.reconcile depth).map Prod.snd).toOption.getD frames

/-- The frame stack after calls to it, in this order. -/
def acts (frames : Frames) (calls : List Act) : Frames :=
  calls.foldl act frames

/-- A call that does not touch the oldest `depth` frames. -/
def Spares (depth : Nat) (frames : Frames) : Act → Prop
  | .enter _ => True
  | .leave => depth < frames.depth
  | .annotate _ => depth < frames.depth
  | .reconcile target => depth ≤ target

/-- Calls none of which touches the oldest `depth` frames. -/
def SparesAll (depth : Nat) : Frames → List Act → Prop
  | _, [] => True
  | frames, call :: calls =>
      frames.Spares depth call ∧ (frames.act call).SparesAll depth calls

variable {frames : Frames} {depth : Nat}

private theorem snapshot_eq (frames : Frames) (depth : Nat) :
    frames.snapshot depth = frames.toList.take depth :=
  frames.toList_truncate depth

/-- A longer frame stack begins with the same frames. -/
theorem snapshot_of_isPrefix {longer : Frames} (h : frames.toList <+: longer.toList)
    (hDepth : depth ≤ frames.depth) :
    longer.snapshot depth = frames.snapshot depth := by
  obtain ⟨more, hMore⟩ := h
  rw [snapshot_eq, snapshot_eq, ← hMore, List.take_append_of_le_length]
  rwa [frames.length_toList]

private theorem snapshot_truncate {target : Nat} (h : depth ≤ target) :
    Frames.snapshot (frames.truncate target) depth = frames.snapshot depth := by
  rw [snapshot_eq, snapshot_eq, Stack.toList_truncate, List.take_take,
    Nat.min_eq_left h]

/-- What stays above a depth for one call leaves as many frames, and the same ones. -/
theorem snapshot_act {call : Act} (h : frames.Spares depth call)
    (hDepth : depth ≤ frames.depth) :
    depth ≤ (frames.act call).depth ∧ (frames.act call).snapshot depth =
      frames.snapshot depth := by
  cases call with
  | enter site =>
      rw [act]
      cases hEnter : frames.enter site with
      | error error => exact ⟨hDepth, rfl⟩
      | ok entered =>
          have hLive := live_enter hEnter
          refine ⟨?_,
            snapshot_of_isPrefix ⟨[⟨site, ""⟩], (Stack.toList_of_live hLive).symm⟩
            hDepth⟩
          change depth ≤ entered.depth
          rw [entered.depth_eq, hLive, List.length_cons, ← frames.depth_eq]
          omega
  | leave =>
      rw [act, leave]
      cases hPop : frames.pop with
      | error error => exact ⟨hDepth, rfl⟩
      | ok popped =>
          obtain ⟨frame, left⟩ := popped
          have hLive := (Stack.live_pop hPop).1
          have hFrames : depth < frames.depth := h
          have hLeft : depth ≤ left.depth := by
            rw [frames.depth_eq, hLive, List.length_cons, ← left.depth_eq] at hFrames
            omega
          exact ⟨hLeft,
            (snapshot_of_isPrefix ⟨[frame], (Stack.toList_of_live hLive).symm⟩
            hLeft).symm⟩
  | annotate text =>
      refine ⟨hDepth, ?_⟩
      have hFrames : depth < frames.depth := h
      rw [snapshot_eq, snapshot_eq]
      change (frames.live.modifyHead _).reverse.take depth =
        frames.live.reverse.take depth
      cases hLive : frames.live with
      | nil => rfl
      | cons frame older =>
          rw [frames.depth_eq, hLive, List.length_cons] at hFrames
          rw [List.modifyHead_cons, List.reverse_cons, List.reverse_cons,
            List.take_append_of_le_length, List.take_append_of_le_length]
          all_goals
            rw [List.length_reverse]
            omega
  | reconcile target =>
      rw [act, reconcile]
      have hTarget : depth ≤ target := h
      split
      · exact ⟨hDepth, rfl⟩
      · split
        · exact ⟨hDepth, rfl⟩
        · split
          · refine ⟨?_, snapshot_truncate hTarget⟩
            change depth ≤ min target frames.depth
            omega
          · exact ⟨hDepth, rfl⟩

/-- What stays above a depth leaves the frames below it alone. -/
theorem snapshot_acts {calls : List Act} (h : frames.SparesAll depth calls)
    (hDepth : depth ≤ frames.depth) :
    (frames.acts calls).snapshot depth = frames.snapshot depth := by
  induction calls generalizing frames with
  | nil => rfl
  | cons call calls ih =>
      obtain ⟨hHigh, hSame⟩ := snapshot_act h.1 hDepth
      exact (ih h.2 hHigh).trans hSame

end Frames

/-! ## Records after detaching -/

/-- A settled record means the same on every frame stack that begins with the same
frames, up to the depth it was settled for. -/
theorem Record.toException_settle_of_snapshot (record : Record) {frames other : Frames}
    {depth : Nat} (h : other.snapshot depth = frames.snapshot depth) :
    (record.settle depth frames.live).toException other =
      record.toException frames := by
  unfold settle
  split
  · rw [toException_eq_against record frames]
    rfl
  · next hReaches =>
      cases hTrace : record.trace with
      | owned copied => simp only [toException, Record.frames, hTrace]
      | live anchor =>
          have hAnchor :
              anchor ≤ depth := by simpa [reachesAbove, hTrace] using hReaches
          have hSame : other.snapshot anchor = frames.snapshot anchor := by
            rw [Frames.snapshot_eq, Frames.snapshot_eq] at h ⊢
            rw [← Nat.min_eq_left hAnchor, ← List.take_take, ← List.take_take, h]
          simp only [toException, Record.frames, hTrace, hSame]

/-- What detaching from the frames above a depth makes of a record. -/
structure Record.DetachedAs (record : Record) (depth : Nat) (frames : Frames)
    (kept : Record) : Prop where
  /-- It means what it meant. -/
  exception : kept.toException frames = record.toException frames
  /-- If it points to no frame above the depth it is not written to. -/
  untouched : ∀ anchor, record.trace = .live anchor → anchor ≤ depth → kept = record
  /-- It points to no frame above the depth. -/
  lowered : ∀ anchor, kept.trace = .live anchor → anchor ≤ depth
  /-- It keeps that meaning, whatever happens to the frames above the depth. -/
  lasting : ∀ calls, (frames.acts calls).snapshot depth = frames.snapshot depth →
    kept.toException (frames.acts calls) = record.toException frames

/-- A record that is settled means what it meant, whatever is done to the frames above
from then on. -/
theorem Record.detachedAs_settle (record : Record) (depth : Nat) (frames : Frames) :
    record.DetachedAs depth frames (record.settle depth frames.live) where
  exception := record.toException_settle_of_snapshot rfl
  untouched anchor hTrace hAnchor :=
    settle_of_not_reachesAbove (by simpa [reachesAbove, hTrace] using hAnchor)
  lowered anchor hTrace := by
    have hReaches := record.reachesAbove_settle depth frames.live
    simpa [reachesAbove, hTrace] using hReaches
  lasting _ hSame := record.toException_settle_of_snapshot hSame

namespace Records

/-- To detach the records above a depth settles each at its place. -/
theorem get?_detachAbove (records : Records) (depth : Nat) (frames : Frames)
    (index : Nat) :
    (records.detachAbove depth frames).get? index = (records.get? index).map
      fun record => record.settle depth frames.live := by
  rw [← Stack.getElem?_toList, ← Stack.getElem?_toList, Stack.toList, Stack.toList,
    live_detachAbove, ← List.map_reverse, List.getElem?_map]

/-- Detaching is not seen. Each record stays in its place and yields the same exception
as before; one that needs no frame above the depth is not touched, and none points above
the depth any more. From then on it yields that exception after any calls to the frame
stack, as long as the oldest frames up to the depth are what they were.

The last part is what the copying is for: frames above the depth may be popped, pushed
again, annotated and written over, and no record shows it. -/
theorem detachAbove_unseen (records : Records) (frames : Frames) (depth : Nat) :
    (records.detachAbove depth frames).depth = records.depth ∧
      ∀ index record, records.get? index = some record →
        ∃ kept, (records.detachAbove depth frames).get? index = some kept ∧
          record.DetachedAs depth frames kept := by
  refine ⟨rfl, fun index record hFound =>
    ⟨_, ?_, record.detachedAs_settle depth frames⟩⟩
  rw [get?_detachAbove, hFound]
  rfl

/-- Two records, one of which loses its innermost frame and gets a copy: the place of
that frame is taken by another call, which is annotated and then removed again as a
leftover. -/
theorem detachAbove_unseen_of_reuse :
    let outer : Site := ⟨"a", 1, "outer"⟩
    let inner : Site := ⟨"a", 2, "inner"⟩
    let other : Site := ⟨"a", 3, "other"⟩
    let frames : Frames := ⟨"frames", 8, [⟨inner, "busy"⟩, ⟨outer, ""⟩], [], 2, rfl⟩
    let high : Record := ⟨⟨5⟩, "m", inner, .live 2⟩
    let low : Record := ⟨⟨5⟩, "n", outer, .live 1⟩
    let records : Records := ⟨"exceptions", 8, [low, high], [], 2, rfl⟩
    let calls : List Frames.Act :=
      [.leave, .enter other, .annotate "late", .enter inner, .reconcile 2]
    let later := frames.acts calls
    later.toList = [⟨outer, ""⟩, ⟨other, "late"⟩] ∧
      (records.detachAbove 1 frames).get? 1 = some low ∧ low.toException later =
        low.toException frames ∧
      ∃ kept, (records.detachAbove 1 frames).get? 0 = some kept ∧ kept ≠ high ∧
        high.toException later ≠ high.toException frames ∧ kept.toException later =
          high.toException frames := by
  intro outer inner other frames high low records calls later
  have hSpares : frames.SparesAll 1 calls := by
    simp only [Frames.SparesAll, Frames.Spares, calls]
    decide
  have hSame : later.snapshot 1 = frames.snapshot 1 :=
    Frames.snapshot_acts hSpares (by decide)
  obtain ⟨-, hDetached⟩ := detachAbove_unseen records frames 1
  obtain ⟨kept, hKept, hHigh⟩ := hDetached 0 high rfl
  obtain ⟨left, hLeft, hLow⟩ := hDetached 1 low rfl
  have hUntouched := hLow.untouched 1 rfl (by decide)
  refine ⟨by
    decide, hUntouched ▸ hLeft, ?_, kept, hKept,
      ?_, by decide, hHigh.lasting calls hSame⟩
  · exact hUntouched ▸ hLow.lasting calls hSame
  · rintro rfl
    exact absurd (hHigh.lowered 2 rfl) (by decide)

end Records

end Unwinding
