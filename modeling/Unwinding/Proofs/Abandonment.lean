import Unwinding.Proofs.Effects

/-!
# Abandoned regions

An explicit region whose handle goes away without having been left may leave anything
behind: marks of other regions, calls, guard scopes, records, and a record in flight.
`Context.abandon` takes all five stacks back to the depths that the region remembers of
its entry, and then looks for the region that reports the escape. The second part may
fail, but not before the first part is done: what a failing call leaves behind is
restored like everything else.

The order matters at two places. Records are released and the frames of the remaining
ones are copied before frames are taken away, so that a record that stays keeps its
meaning; and the region that reports is looked for among the regions that are left.

## Main results

* `ends_cutBack` : the first part cannot fail where the stacks are deep enough; what it
  makes of a context (`Context.rewound`).
* `reporter?_eq_some_iff` : which region reports.
* `abandon_restores` : whatever was left above an explicit region, abandoning it
  restores its entry.
-/

namespace Unwinding

/-! ## Stacks that are cut back -/

namespace Stack

variable {α : Type} {stack earlier cut : Stack α}

/-- What is left of a stack when it is cut back to the depth of an earlier one. -/
structure CutBack (stack earlier cut : Stack α) : Prop where
  /-- The oldest entries are left, as many as there were. -/
  entries : cut.toList = stack.toList.take earlier.depth
  depth : cut.depth = earlier.depth
  /-- If the entries that were there had only been added to, just these are left. -/
  whole : earlier.toList <+: stack.toList → cut.toList = earlier.toList
  name : cut.name = stack.name
  limit : cut.limit = stack.limit

/-- A stack that is truncated to a depth it had has been cut back to the entries below
that depth, and holds no others. -/
theorem cutBack_truncate (h : earlier.depth ≤ stack.depth) :
    stack.CutBack earlier (stack.truncate earlier.depth) where
  entries := stack.toList_truncate _
  depth := Nat.min_eq_left h
  whole hAdded := by
    rw [toList_truncate, ← length_toList]
    exact (List.prefix_iff_eq_take.1 hAdded).symm
  name := rfl
  limit := rfl

/-- To truncate a stack to its own depth does nothing. -/
theorem truncate_depth (stack : Stack α) : stack.truncate stack.depth = stack := by
  apply Stack.ext
  · rfl
  · rfl
  · simp [bottom]
  · simp [truncate]

end Stack

private theorem Frames.reconcile_eq {frames : Frames} {depth : Nat}
    (h : depth ≤ frames.depth) :
    ∃ outcome, frames.reconcile depth = .ok (outcome, frames.truncate depth) := by
  unfold Frames.reconcile
  rw [if_neg (by omega)]
  by_cases hSame : frames.depth = depth
  · subst hSame
    rw [if_pos rfl]
    exact ⟨.balanced, by rw [Stack.truncate_depth]⟩
  · rw [if_neg hSame]
    cases hTop : frames.top? with
    | some innermost => exact ⟨_, rfl⟩
    | none =>
        have hNil : frames.live = [] := List.head?_eq_none_iff.1 hTop
        have hZero : frames.depth = 0 := by rw [frames.depth_eq, hNil]; rfl
        omega

/-- A protected region whose body runs. -/
def Region.Runs (region : Region) : Prop :=
  region.visit.explicit = false ∧ region.state = .dispatching

/-- A record keeps its meaning when the frames above a depth are given up. -/
theorem Record.toException_settle (record : Record) {frames : Frames} {depth : Nat}
    (h : depth ≤ frames.depth) :
    (record.settle depth frames.live).toException (frames.truncate depth) =
      record.toException frames := by
  have hLength : (frames.live.drop (frames.depth - depth)).length = depth := by
    rw [List.length_drop, ← frames.depth_eq]
    omega
  have hSettle :=
    record.against_settle (frames.live.take (frames.depth - depth))
    (frames.live.drop (frames.depth - depth))
  rw [hLength, List.take_append_drop] at hSettle
  rw [toException_eq_against, toException_eq_against, Stack.live_truncate]
  exact hSettle

namespace Context

variable {context before entered after : Context} {visit : Visit} {site : Site}
    {owner depth : Nat}

/-! ## The two parts -/

/-- The stacks go back to where they were when the region was entered. -/
def cutBack (visit : Visit) : Step Unit := do
  note (.regionUnclosed visit.site ((← get).depths.mismatches visit.entry))
  releaseRecords visit.entry.exceptions false
  detachAbove visit.entry.frames
  onRegions fun regions => .ok (regions.truncate visit.entry.regions)
  onDispatch fun dispatch => .ok (dispatch.truncate visit.entry.dispatch)
  onGuards fun guards => .ok (guards.truncate visit.entry.guards)
  reconcileFrames visit.entry.frames

/-- The region that is to report the escape is found, and told of it unless it knows of
one. -/
def leaveEscape (visit : Visit) : Step Unit := do
  match reporter? (← get) with
  | none => fail (.escapeUnreported visit.site)
  | some owner =>
      if ((← get).escapes.head?.map Escape.owner) = some owner then
        note (.escapeRepeated owner visit.site)
      else
        modify fun context =>
          { context with escapes := ⟨visit.site, owner⟩ :: context.escapes }

/-- To abandon a region is to cut the stacks back and then to leave an escape behind.
The two parts are looked at one after the other. -/
theorem abandon_eq (visit : Visit) :
    abandon visit = cutBack visit >>= fun _ => leaveEscape visit := by
  simp only [cutBack, bind_assoc]
  rfl

/-- The context with its stacks cut back to the depths of an entry. -/
def rewound (context : Context) (entry : Depths) (told : List Notice) : Context :=
  { context with
    regions := context.regions.truncate entry.regions
    dispatch := context.dispatch.truncate entry.dispatch
    guards := context.guards.truncate entry.guards
    frames := context.frames.truncate entry.frames
    records :=
      Records.detachAbove (context.records.truncate entry.exceptions)
      entry.frames context.frames
    inFlight := flightAfter context.inFlight entry.exceptions false
    journal := told ++ context.journal }

/-- Releasing the records from a depth on, with none to be kept. -/
theorem ends_releaseAll :
    Ends (releaseRecords depth false context)
      (fun _ after => after = { context with
        records := context.records.truncate depth
        inFlight := flightAfter context.inFlight depth false })
      fun _ => False := by
  refine ends_bind (ends_get ?_)
  cases hFlight : context.inFlight with
  | none =>
      refine ends_onRecords (fun records hOk => ?_) fun _ hError => by cases hError
      cases hOk
      rw [← hFlight]
      simp only [hFlight, flightAfter]
  | some index =>
      dsimp only
      by_cases hLow : index < depth
      · rw [if_pos hLow]
        refine ends_onRecords (fun records hOk => ?_) fun _ hError => by cases hError
        cases hOk
        simp only [flightAfter, if_pos hLow, ← hFlight]
      · rw [if_neg hLow, if_neg Bool.false_ne_true]
        refine ends_bind
          (ends_modify (ends_onRecords (fun records hOk => ?_) fun _ hError => by
          cases hError))
        cases hOk
        simp only [flightAfter, if_neg hLow, if_neg Bool.false_ne_true]

private theorem ends_cutFrames (h : depth ≤ context.frames.depth) :
    Ends (reconcileFrames depth context)
      (fun _ after => ∃ told, after = { context with
        frames := context.frames.truncate depth
        journal := told ++ context.journal })
      fun _ => False := by
  obtain ⟨outcome, hCut⟩ := Frames.reconcile_eq h
  refine ends_bind
    (ends_get (ends_bind (ends_get (ends_bind (ends_ofExcept ?_ fun _ hError => ?_)))))
  · rintro result hOk
    rw [hCut] at hOk
    cases hOk
    cases outcome with
    | balanced => exact ends_modify ⟨[], rfl⟩
    | repaired count innermost => exact ends_bind (ends_note (ends_modify ⟨[_], rfl⟩))
  · rw [hCut] at hError
    cases hError

private theorem ends_of_eq {α : Type} {outcome : EStateM.Result Error Context α}
    {answer : α} (h : outcome = .ok answer after) :
    Ends outcome (fun _ found => found = after) fun _ => False := by
  rw [h]
  rfl

/-- The first part cannot fail where the frames are deep enough. -/
theorem ends_cutBack (h : visit.entry.frames ≤ context.frames.depth) :
    Ends (cutBack visit context)
      (fun _ after => ∃ told, after = context.rewound visit.entry told)
      fun _ => False := by
  refine ends_bind
    (ends_get (ends_bind ((ends_of_eq rfl).imp fun _ noted hNoted => ?_)))
  refine ends_bind (ends_releaseAll.imp fun _ released hReleased => ?_)
  refine ends_bind ((ends_of_eq rfl).imp fun _ detached hDetached => ?_)
  refine ends_bind ((ends_of_eq rfl).imp fun _ left hLeft => ?_)
  refine ends_bind ((ends_of_eq rfl).imp fun _ lowered hLowered => ?_)
  refine ends_bind ((ends_of_eq rfl).imp fun _ freed hFreed => ?_)
  have hSame : freed.frames = context.frames := by
    rw [hFreed, hLowered, hLeft, hDetached, hReleased, hNoted]
  refine (ends_cutFrames (hSame ▸ h)).imp fun _ after hAfter => ?_
  obtain ⟨told, hAfter⟩ := hAfter
  refine ⟨told ++ [.regionUnclosed visit.site (context.depths.mismatches visit.entry)],
    ?_⟩
  simp only [hAfter, hFreed, hLowered, hLeft, hDetached, hReleased, hNoted, rewound,
    List.append_assoc, List.singleton_append]

/-! ## The region that reports -/

/-- The innermost protected region whose body runs has this number. -/
def Reports (regions : List Region) (owner : Nat) : Prop :=
  ∃ inner region outer, regions = inner ++ region :: outer ∧ region.Runs ∧
    region.visit.id = owner ∧
    ∀ other ∈ inner, ¬ other.Runs

/-- The region that is looked for among the live marks is the one that has to report:
the innermost protected one whose body still runs. -/
theorem reporter?_eq_some_iff : reporter? context = some owner ↔
    Reports context.regions.live owner := by
  have hRuns (region : Region) :
      (!region.visit.explicit && region.state == .dispatching) = true ↔
      region.Runs := by
    simp [Region.Runs]
  simp only [reporter?, Option.map_eq_some_iff, List.find?_eq_some_iff_append,
    Bool.not_eq_true', ← Bool.not_eq_true, hRuns]
  constructor
  · rintro ⟨region, ⟨hRegion, inner, outer, hLive, hInner⟩, hOwner⟩
    exact ⟨inner, region, outer, hLive, hRegion, hOwner, hInner⟩
  · rintro ⟨inner, region, outer, hLive, hRegion, hOwner, hInner⟩
    exact ⟨region, ⟨hRegion, inner, outer, hLive, hInner⟩, hOwner⟩

/-- A step that looks at the context goes on with the context it is in. -/
theorem get_bind {α : Type} (rest : Context → Step α) (context : Context) :
    ((get : Step Context) >>= rest) context = rest context context := rfl

/-- What the second part does, whether it fails or not. -/
theorem leaveEscape_cases (visit : Visit) (context : Context) :
    (∃ owner told, Reports context.regions.live owner ∧
      leaveEscape visit context = .ok () { context with
        escapes := report owner visit.site context.escapes
        journal := told ++ context.journal }) ∨
    ((∀ owner, ¬ Reports context.regions.live owner) ∧
      leaveEscape visit context = .error (.corrupted (.escapeUnreported visit.site))
        context) := by
  unfold leaveEscape
  rw [get_bind]
  cases hReporter : reporter? context with
  | none =>
      refine .inr ⟨fun owner hReports => ?_, rfl⟩
      rw [reporter?_eq_some_iff.2 hReports] at hReporter
      cases hReporter
  | some owner =>
      have hReports := reporter?_eq_some_iff.1 hReporter
      by_cases hRepeated : context.escapes.head?.map Escape.owner = some owner
      · refine .inl ⟨owner, [.escapeRepeated owner visit.site], hReports, ?_⟩
        dsimp only
        rw [get_bind, if_pos hRepeated, report, if_pos hRepeated]
        rfl
      · refine .inl ⟨owner, [], hReports, ?_⟩
        dsimp only
        rw [get_bind, if_neg hRepeated, report, if_neg hRepeated]
        rfl

/-! ## Abandoning -/

/-- A context in which everything that was left above an earlier one is gone, and
nothing else.

Nothing is assumed about what was left above, or in which order it was opened. -/
structure Restored (context earlier after : Context) : Prop where
  regions : context.regions.CutBack earlier.regions after.regions
  dispatch : context.dispatch.CutBack earlier.dispatch after.dispatch
  guards : context.guards.CutBack earlier.guards after.guards
  frames : context.frames.CutBack earlier.frames after.frames
  /-- The records that are left have copied the frames that are gone. -/
  records : ∃ cut : Records, context.records.CutBack earlier.records cut ∧
    after.records = cut.detachAbove earlier.frames.depth context.frames
  /-- Every record that is left means what it meant. -/
  exceptions : ∀ index record, index < earlier.records.depth →
    context.records.get? index = some record →
    ∃ kept, after.records.get? index = some kept ∧ kept.toException after.frames =
      record.toException context.frames
  flying : ∀ index, context.inFlight = some index → index < earlier.records.depth →
    after.inFlight = some index
  grounded : (∀ index, context.inFlight = some index → earlier.records.depth ≤ index) →
    after.inFlight = none
  messageLimit : after.messageLimit = context.messageLimit
  escapeKind : after.escapeKind = context.escapeKind
  nextId : after.nextId = context.nextId
  /-- Observers have been told more. -/
  journal : context.journal <:+ after.journal

private theorem restored_rewound
    (h : ∀ kind, before.depths.get kind ≤ context.depths.get kind)
    (told : List Notice) :
    context.Restored before (context.rewound before.depths told) where
  regions := Stack.cutBack_truncate (h .regions)
  dispatch := Stack.cutBack_truncate (h .dispatch)
  guards := Stack.cutBack_truncate (h .guards)
  frames := Stack.cutBack_truncate (h .frames)
  records := ⟨_, Stack.cutBack_truncate (h .exceptions), rfl⟩
  exceptions index record hIndex hFound := by
    refine ⟨record.settle before.frames.depth context.frames.live, ?_,
      record.toException_settle (h .frames)⟩
    have hRecords : (context.rewound before.depths told).records.toList =
        (context.records.toList.take before.records.depth).map fun record =>
          record.settle before.frames.depth context.frames.live := by
      rw [← Stack.toList_truncate, Stack.toList, Stack.toList, rewound,
        live_detachAbove, List.map_reverse]
      rfl
    rw [← Stack.getElem?_toList] at hFound ⊢
    rw [hRecords, List.getElem?_map, List.getElem?_take_of_lt hIndex, hFound]
    rfl
  flying index hFlight hLow := by
    simp only [rewound, flightAfter, hFlight]
    exact if_pos hLow
  grounded hHigh := by
    cases hFlight : context.inFlight with
    | none => simp only [rewound, flightAfter, hFlight]
    | some index =>
        simp only [rewound, flightAfter, hFlight, Bool.false_eq_true, if_false]
        exact if_neg (Nat.not_lt.2 (hHigh index hFlight))
  messageLimit := rfl
  escapeKind := rfl
  nextId := rfl
  journal := ⟨told, rfl⟩

/-- An escape that is left to be reported is no part of this, and neither is what else
observers are told. -/
theorem Restored.told (h : context.Restored before after) (escapes : List Escape)
    (told : List Notice) :
    context.Restored before { after with escapes, journal := told ++ after.journal } :=
  { h with journal := h.journal.trans ⟨told, rfl⟩ }

/-- Abandoning an explicit region restores its entry, whatever was left above it. Take
an explicit region that was entered in some context, and any later context whose stacks
are at least as deep as they were then. Each stack is cut back to that depth, with the
oldest entries as they are, and a record that stays means the same exception as before.
Nothing is in flight any more unless its record stays. The innermost protected region
whose body runs, among the regions that are left, is to report the escape, unless the
newest escape is its own already; if there is no such region the call fails, with
everything restored nevertheless.

What lies above may be anything, in any order, as may happen when handles are forgotten
or taken out of turn. That the oldest entries are still there is the only assumption. -/
theorem abandon_restores (hEnter : enter site true before = .ok visit entered)
    (hHeld : ∀ kind, before.depths.get kind ≤ context.depths.get kind) :
    ∃ after, context.Restored before after ∧
      ((abandon visit context = .ok () after ∧ ∃ owner,
        Reports after.regions.live owner ∧
          after.escapes = report owner site context.escapes) ∨
        (abandon visit context = .error (.corrupted (.escapeUnreported site)) after ∧
          (∀ owner, ¬ Reports after.regions.live owner) ∧ after.escapes =
            context.escapes)) := by
  obtain ⟨hVisit, -⟩ := effect_enter.of_ok hEnter
  have hEntry : visit.entry = before.depths := congrArg Visit.entry hVisit
  have hSite : visit.site = site := congrArg Visit.site hVisit
  have hFrames : visit.entry.frames ≤ context.frames.depth := hEntry ▸ hHeld .frames
  obtain ⟨_, cut, hCut, told, hTold⟩ := (ends_cutBack hFrames).answer
  have hRestored : context.Restored before cut := by
    rw [hTold, hEntry]
    exact restored_rewound hHeld told
  have hEscapes : cut.escapes = context.escapes := by rw [hTold, rewound]
  have hSecond : abandon visit context = leaveEscape visit cut := by
    rw [abandon_eq]
    change EStateM.bind (cutBack visit) _ context = _
    simp only [EStateM.bind, hCut]
  rw [hSecond, ← hEscapes, ← hSite]
  rcases leaveEscape_cases visit cut with ⟨owner, more, hReports, hDone⟩
    | ⟨hNone, hFailed⟩
  · exact ⟨_, hRestored.told _ more, .inl ⟨hDone, owner, hReports, rfl⟩⟩
  · exact ⟨cut, hRestored, .inr ⟨hFailed, hNone, rfl⟩⟩

/-- A region that is abandoned with a handler's region, a call and an exception in
flight above it. -/
theorem abandon_restores_of_leftovers :
    let outer : Site := ⟨"a", 1, "outer"⟩
    let inner : Site := ⟨"a", 2, "inner"⟩
    let call : Site := ⟨"a", 3, "call"⟩
    let around : Region := ⟨⟨1, outer, {}, false⟩, .dispatching⟩
    let before : Context := { Context.new {} {} with
      regions := ⟨"regions", 8, [around], [], 1, rfl⟩
      frames := ⟨"frames", 8, [⟨outer, ""⟩], [], 1, rfl⟩
      nextId := 2 }
    let visit : Visit := ⟨2, inner, before.depths, true⟩
    let context : Context := { before with
      regions :=
        ⟨"regions", 8, [⟨⟨3, call, {}, false⟩, .handling⟩, ⟨visit, .entered⟩, around],
        [], 3, rfl⟩
      frames := ⟨"frames", 8, [⟨call, "late"⟩, ⟨inner, ""⟩, ⟨outer, ""⟩], [], 3, rfl⟩
      records := ⟨"exceptions", 8, [⟨⟨5⟩, "m", call, .live 3⟩], [], 1, rfl⟩
      inFlight := some 0 }
    (∃ entered, enter inner true before = .ok visit entered) ∧
      (∀ kind, before.depths.get kind ≤ context.depths.get kind) ∧
      ∃ after, abandon visit context = .ok () after ∧ context.Restored before after ∧
        after.frames.toList = [⟨outer, ""⟩] ∧ after.inFlight = none ∧ after.escapes =
          [⟨inner, 1⟩] := by
  intro outer inner call around before visit context
  have hEnter : ∃ entered, enter inner true before = .ok visit entered := ⟨_, rfl⟩
  have hHeld : ∀ kind, before.depths.get kind ≤ context.depths.get kind := by
    intro kind
    cases kind <;> decide
  refine ⟨hEnter, hHeld, ?_⟩
  obtain ⟨entered, hEntered⟩ := hEnter
  obtain ⟨after, hRestored, ⟨hDone, -⟩ | ⟨hFailed, -⟩⟩ :=
    abandon_restores hEntered hHeld
  · refine ⟨after, hDone, hRestored, hRestored.frames.whole ⟨_, rfl⟩,
      hRestored.grounded fun index _ => Nat.zero_le index, ?_⟩
    cases hDone
    rfl
  · cases hFailed

end Context

end Unwinding
