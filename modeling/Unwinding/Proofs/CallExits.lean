import Unwinding.Proofs.Abandonment
import Unwinding.Proofs.Detachment
import Unwinding.Proofs.Sizes

/-!
# Ways out of a traced call

A traced call remembers how deep the five stacks were when it was entered, and one frame
is its own. When it is left, by a return or by an exception, the callee may have left
frames behind or have taken some away, and on the other four stacks anything may have
happened. Frames left over are removed together with the call's own. Nothing else is
repaired: what is missing, or out of balance on another stack, is an error, unless an
exception is on its way through the call.

Three depths matter that differ by one. The frames of the caller are as many as there
were on entry, so records must not point above that depth afterwards; the call's own
frame lies above them and is looked for before it is popped. So the frame stack is cut
back to one more than the depth of the entry, and records are detached above the depth
of the entry itself.

## Main results

* `reconcileFrames_eq` : cutting the frame stack back, with what observers are told of
  it.
* `leaveCall_cases` : the outcomes of leaving a call, in any context.
* `leaveCall_repairs` : leaving a call removes its frames, keeps everything else, and
  changes the meaning of no record.
-/

namespace Unwinding

namespace Stack

variable {α : Type} {stack : Stack α} {depth : Nat}

/-- A stack that was cut back and gives one more entry away is cut back by one more. -/
theorem pop_truncate (h : depth < stack.depth) :
    ∃ node, (stack.truncate (depth + 1)).pop = .ok (node, stack.truncate depth) := by
  have hCount : stack.depth - depth = stack.depth - (depth + 1) + 1 := by omega
  have hTop : stack.depth - (depth + 1) < stack.live.length := by
    rw [← stack.depth_eq]
    omega
  have hLive : (stack.truncate (depth + 1)).live =
      stack.live[stack.depth - (depth + 1)] :: stack.live.drop (stack.depth - depth) :=
        by
    rw [live_truncate, bottom, hCount, ← List.drop_eq_getElem_cons hTop]
  have hTaken : (stack.live.take (stack.depth - depth)).reverse =
      stack.live[stack.depth - (depth + 1)] ::
        (stack.live.take (stack.depth - (depth + 1))).reverse := by
    rw [hCount, List.take_succ_eq_append_getElem hTop, List.reverse_concat]
  unfold pop
  split
  · next node live hCons =>
      obtain ⟨rfl, rfl⟩ := List.cons.inj (hLive.symm.trans hCons)
      refine ⟨_, congrArg (fun popped => Except.ok (_, popped))
        (Stack.ext rfl rfl rfl ?_)⟩
      simp only [truncate, hTaken, List.cons_append]
  · next hNil =>
      rw [hLive] at hNil
      cases hNil

end Stack

/-- The call's own frame is popped from a frame stack that was cut back to it. -/
theorem Frames.leave_truncate {frames : Frames} {depth : Nat}
    (h : depth < frames.depth) :
    Frames.leave (frames.truncate (depth + 1)) = .ok (frames.truncate depth) := by
  obtain ⟨frame, hPop⟩ := Stack.pop_truncate h
  rw [leave, hPop]
  rfl

namespace Context

variable {context before entered : Context} {entry : Depths} {site : Site} {depth : Nat}
    {unwinding : Bool}

/-! ## Frames that are left over -/

/-- What observers are told when the frame stack is cut back to a depth: the innermost
frame that was left over, if any was. -/
def leftOver (frames : Frames) (depth : Nat) : List Notice :=
  if frames.depth = depth then [] else
    (frames.top?.map fun innermost => .framesLeftOver depth frames.depth
    innermost).toList

/-- Cutting the frame stack back, where it is deep enough. -/
theorem reconcileFrames_eq (h : depth ≤ context.frames.depth) :
    reconcileFrames depth context = .ok () { context with
      frames := context.frames.truncate depth
      journal := leftOver context.frames depth ++ context.journal } := by
  have hNot : ¬ context.frames.depth < depth := by omega
  unfold reconcileFrames
  rw [get_bind, get_bind]
  unfold Frames.reconcile leftOver
  rw [if_neg hNot]
  by_cases hSame : context.frames.depth = depth
  · rw [if_pos hSame, if_pos hSame, ← hSame, Stack.truncate_depth]
    rfl
  · rw [if_neg hSame, if_neg hSame]
    cases hTop : context.frames.top? with
    | some innermost => rfl
    | none =>
        have hNil : context.frames.live = [] := List.head?_eq_none_iff.1 hTop
        have hZero : context.frames.depth = 0 := by
          rw [context.frames.depth_eq, hNil]
          rfl
        omega

/-! ## The outcomes -/

/-- The context with the frames above a depth gone. -/
def callLeft (context : Context) (depth : Nat) : Context :=
  { context with
    frames := context.frames.truncate depth
    records := context.records.detachAbove depth context.frames
    journal := leftOver context.frames (depth + 1) ++ context.journal }

/-- The stacks other than the frame stack are as deep as they were at some moment. -/
def Balanced (context : Context) (entry : Depths) : Prop :=
  ∀ kind, kind ≠ .frames → context.depths.get kind = entry.get kind

/-- The depths agree once the frames are gone if the other four do. -/
theorem depths_callLeft_iff (h : entry.frames ≤ context.frames.depth) :
    (context.callLeft entry.frames).depths = entry ↔ context.Balanced entry := by
  have hFrames : (context.callLeft entry.frames).depths.frames = entry.frames :=
    Nat.min_eq_left h
  constructor
  · intro hSame kind hKind
    rw [← hSame]
    cases kind with
    | frames => exact absurd rfl hKind
    | regions | dispatch | guards | exceptions => rfl
  · intro hBalanced
    refine Depths.ext_get fun kind => ?_
    cases kind with
    | frames => exact hFrames
    | regions => exact hBalanced .regions (by decide)
    | dispatch => exact hBalanced .dispatch (by decide)
    | guards => exact hBalanced .guards (by decide)
    | exceptions => exact hBalanced .exceptions (by decide)

/-- Leaving a call has three outcomes. If its own frame is missing, nothing happens but
that records are detached. Otherwise the frames go; then the other stacks are looked at,
unless an exception is on its way. -/
theorem leaveCall_cases (context : Context) (entry : Depths) (unwinding : Bool) :
    (context.frames.depth ≤ entry.frames ∧
      leaveCall entry unwinding context =
        .error (.corrupted (.framesShrank (entry.frames + 1) context.frames.depth))
        { context with
          records := context.records.detachAbove entry.frames context.frames }) ∨
    (entry.frames < context.frames.depth ∧ (unwinding = true ∨ context.Balanced entry) ∧
      leaveCall entry unwinding context = .ok () (context.callLeft entry.frames)) ∨
    (entry.frames < context.frames.depth ∧ unwinding = false ∧
      ¬ context.Balanced entry ∧ leaveCall entry unwinding context =
      .error (.corrupted (.callUnbalanced entry (context.callLeft entry.frames).depths))
      (context.callLeft entry.frames)) := by
  let detached : Context :=
    { context with records := context.records.detachAbove entry.frames context.frames }
  rcases Nat.lt_or_ge entry.frames context.frames.depth with hDeep | hShallow
  · refine .inr ?_
    have hCut : reconcileFrames (entry.frames + 1) detached = .ok () { detached with
        frames := context.frames.truncate (entry.frames + 1)
        journal := leftOver context.frames (entry.frames + 1) ++ context.journal } :=
      reconcileFrames_eq hDeep
    have hRest : leaveCall entry unwinding context = (do
        unless unwinding do
          let now := (← get).depths
          unless (now.mismatches entry).isEmpty do
            fail (.callUnbalanced entry now) : Step Unit)
              (context.callLeft entry.frames) := by
      change EStateM.bind (reconcileFrames (entry.frames + 1)) _ detached = _
      simp only [EStateM.bind, hCut]
      change EStateM.bind (onFrames Frames.leave) _ _ = _
      simp only [EStateM.bind, onFrames, get_bind, Frames.leave_truncate hDeep]
      rfl
    cases unwinding with
    | true => exact .inl ⟨hDeep, .inl rfl, hRest⟩
    | false =>
        have hBalanced := depths_callLeft_iff (Nat.le_of_lt hDeep)
        rw [← Depths.mismatches_isEmpty] at hBalanced
        simp only [Bool.false_eq_true, if_false, get_bind] at hRest
        by_cases hSame :
          ((context.callLeft entry.frames).depths.mismatches entry).isEmpty = true
        · rw [if_pos hSame] at hRest
          exact .inl ⟨hDeep, .inr (hBalanced.1 hSame), hRest⟩
        · rw [if_neg hSame] at hRest
          exact .inr ⟨hDeep, rfl, fun hFine => hSame (hBalanced.2 hFine), hRest⟩
  · refine .inl ⟨hShallow, ?_⟩
    have hMissing : Frames.reconcile detached.frames (entry.frames + 1) =
        .error (.corrupted (.framesShrank (entry.frames + 1) context.frames.depth)) :=
      if_pos (Nat.lt_succ_of_le hShallow)
    change EStateM.bind (reconcileFrames (entry.frames + 1)) _ detached = _
    simp only [EStateM.bind, reconcileFrames, get_bind, hMissing]
    rfl

/-! ## Leaving a call -/

/-- A context that has lost the frames above an earlier depth and is otherwise the same.

The stacks other than the frames are not touched, whether they are balanced or not. -/
structure CallLeft (context before after : Context) : Prop where
  frames : context.frames.CutBack before.frames after.frames
  records : after.records = context.records.detachAbove before.frames.depth
    context.frames
  others :
    { after with
      frames := context.frames
      records := context.records
      journal := context.journal } = context
  /-- Observers are told of frames that were left over, and of nothing else. -/
  journal : after.journal = leftOver context.frames (before.frames.depth + 1) ++
    context.journal

private theorem callLeft_callLeft (h : before.frames.depth < context.frames.depth) :
    context.CallLeft before (context.callLeft before.frames.depth) where
  frames := Stack.cutBack_truncate (Nat.le_of_lt h)
  records := rfl
  others := rfl
  journal := rfl

/-- The record in a place after a call, with what it means against the frames that are
left. -/
theorem kept_leaveCall {index : Nat} {record : Record}
    (hFound : context.records.get? index = some record) :
    ∃ kept, (leftBehind (leaveCall entry unwinding context)).records.get? index =
      some kept ∧
      record.DetachedAs entry.frames context.frames kept ∧
      kept.toException (leftBehind (leaveCall entry unwinding context)).frames =
        record.toException context.frames := by
  have hKept : (context.records.detachAbove entry.frames context.frames).get? index =
      some (record.settle entry.frames context.frames.live) := by
    rw [Records.get?_detachAbove, hFound]
    rfl
  have hDetached := record.detachedAs_settle entry.frames context.frames
  rcases leaveCall_cases context entry unwinding with ⟨-, hOutcome⟩
    | ⟨hDeep, -, hOutcome⟩ | ⟨hDeep, -, -, hOutcome⟩
  · rw [hOutcome]
    exact ⟨_, hKept, hDetached, hDetached.exception⟩
  all_goals
    rw [hOutcome]
    exact ⟨_, hKept, hDetached, record.toException_settle (Nat.le_of_lt hDeep)⟩

/-- No record goes when a call is left. -/
theorem depth_leaveCall :
    (leftBehind (leaveCall entry unwinding context)).records.depth =
    context.records.depth := by
  rcases leaveCall_cases context entry unwinding with ⟨-, hOutcome⟩ | ⟨-, -, hOutcome⟩
    | ⟨-, -, -, hOutcome⟩
  all_goals
    rw [hOutcome]
    rfl

/-- Leaving a traced call repairs the frames and nothing else. Take a call that was
entered in some context, and any context that the callee leaves. The call can be left
just if its own frame is still there and, unless an exception is on its way through it,
the other four stacks are as deep as they were. Then the frames are those of the caller,
and all else is as it was, but that records which needed one of the frames above have a
copy. If it cannot be left, the error says why, and the caller's frames are all that is
left unless some of them were missing. In every outcome each record means the same
exception as before. The three outcomes are that the call's own frame is missing, that
the call is left, and that the frames are repaired but another stack is out of balance.

The statement goes by the three outcomes, and says of each when it comes about, what is
left, and what is reported. -/
theorem leaveCall_repairs (hEnter : enterCall site before = .ok entry entered)
    (context : Context) (unwinding : Bool) :
    let outcome := leaveCall entry unwinding context
    ((∃ after, outcome = .ok () after) ↔
        entry.frames + 1 ≤ context.frames.depth ∧
          (unwinding = true ∨ context.Balanced before.depths)) ∧
      (∀ after, outcome = .ok () after → context.CallLeft before after) ∧
      (∀ error after, outcome = .error error after →
        (error =
          .corrupted (.framesShrank (before.frames.depth + 1) context.frames.depth) ∧
          context.frames.depth ≤ before.frames.depth ∧
          after =
          { context with
            records :=
              context.records.detachAbove before.frames.depth context.frames }) ∨
        (error = .corrupted (.callUnbalanced before.depths after.depths) ∧
          unwinding = false ∧ context.CallLeft before after)) ∧
      (leftBehind outcome).records.depth = context.records.depth ∧
      ∀ index record, context.records.get? index = some record →
        ∃ kept, (leftBehind outcome).records.get? index = some kept ∧
          record.DetachedAs before.frames.depth context.frames kept ∧
          kept.toException (leftBehind outcome).frames =
            record.toException context.frames := by
  obtain ⟨rfl, -⟩ := effect_enterCall.of_ok hEnter
  intro outcome
  rcases leaveCall_cases context before.depths unwinding with
    ⟨hShallow, hOutcome⟩ | ⟨hDeep, hWay, hOutcome⟩ | ⟨hDeep, hReturn, hUneven, hOutcome⟩
  · refine ⟨⟨?_, fun hLeaves => absurd hLeaves.1 (Nat.not_lt.2 hShallow)⟩, ?_, ?_,
      depth_leaveCall, fun _ _ => kept_leaveCall⟩
    · rintro ⟨after, hDone⟩
      cases hOutcome.symm.trans hDone
    · intro after hDone
      cases hOutcome.symm.trans hDone
    · intro error after hFailed
      cases hOutcome.symm.trans hFailed
      exact .inl ⟨rfl, hShallow, rfl⟩
  · refine ⟨⟨fun _ => ⟨hDeep, hWay⟩, fun _ => ⟨_, hOutcome⟩⟩, ?_, ?_, depth_leaveCall,
      fun _ _ => kept_leaveCall⟩
    · intro after hDone
      cases hOutcome.symm.trans hDone
      exact callLeft_callLeft hDeep
    · intro error after hFailed
      cases hOutcome.symm.trans hFailed
  · refine ⟨⟨?_, ?_⟩, ?_, ?_, depth_leaveCall, fun _ _ => kept_leaveCall⟩
    · rintro ⟨after, hDone⟩
      cases hOutcome.symm.trans hDone
    · rintro ⟨-, hUnwinding | hBalanced⟩
      · cases hReturn.symm.trans hUnwinding
      · exact absurd hBalanced hUneven
    · intro after hDone
      cases hOutcome.symm.trans hDone
    · intro error after hFailed
      cases hOutcome.symm.trans hFailed
      exact .inr ⟨rfl, hReturn, callLeft_callLeft hDeep⟩

/-- An exception passes through a call that has left a frame and a guard scope behind.
Records point to the frame left behind, to the call's own and to the caller's; all three
keep their frames. -/
theorem leaveCall_repairs_of_exception :
    let outer : Frame := ⟨⟨"a", 1, "outer"⟩, ""⟩
    let inner : Frame := ⟨⟨"a", 2, "inner"⟩, "busy"⟩
    let late : Frame := ⟨⟨"a", 3, "late"⟩, ""⟩
    let record (anchor : Nat) : Record := ⟨⟨5⟩, "m", late.site, .live anchor⟩
    let before : Context :=
      { Context.new {} {} with frames := ⟨"frames", 8, [outer], [], 1, rfl⟩ }
    let context : Context := { before with
      frames := ⟨"frames", 8, [late, inner, outer], [], 3, rfl⟩
      guards := ⟨"guards", 8, [⟨1, inner.site⟩], [], 1, rfl⟩
      records := ⟨"exceptions", 8, [record 3, record 2, record 1], [], 3, rfl⟩
      inFlight := some 2 }
    (∃ entered, enterCall inner.site before = .ok before.depths entered) ∧
      ¬ context.Balanced before.depths ∧
      ∃ after, leaveCall before.depths true context = .ok () after ∧
        context.CallLeft before after ∧
        after.frames.toList = [outer] ∧ after.guards = context.guards ∧ after.inFlight =
          some 2 ∧
        ∃ kept, after.records.get? 2 = some kept ∧
          (kept.toException after.frames).frames = [outer, inner, late] := by
  intro outer inner late record before context
  have hEnter : ∃ entered, enterCall inner.site before = .ok before.depths entered :=
    ⟨_, rfl⟩
  refine ⟨hEnter, fun hBalanced => absurd (hBalanced .guards (by decide)) (by decide),
    ?_⟩
  obtain ⟨entered, hEntered⟩ := hEnter
  obtain ⟨hLeaves, hLeft, -, -, hKept⟩ := leaveCall_repairs hEntered context true
  obtain ⟨after, hDone⟩ := hLeaves.2 ⟨by decide, .inl rfl⟩
  have hAfter := hLeft after hDone
  obtain ⟨kept, hFound, -, hException⟩ := hKept 2 (record 3) rfl
  rw [hDone] at hFound hException
  refine ⟨after, hDone, hAfter, hAfter.frames.entries, ?_, ?_, kept, hFound, ?_⟩
  · exact (congrArg Context.guards hAfter.others :)
  · exact (congrArg Context.inFlight hAfter.others :)
  · exact congrArg Exception.frames hException

end Context

end Unwinding
