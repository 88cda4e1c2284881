import Unwinding.Proofs.Ends

/-!
# What the steps do to the stacks

The laws of the library never look at spare nodes, capacities or the journal. What they
look at is a `Books`: the entries of the five stacks (`Shape`), the record that is in
flight, the escapes that wait, and the next free number. The record in flight is kept
apart from the others, because it belongs to no region yet; on the record stack it is
the newest one. `Represents` ties a context to its books.

For each step there is one law here: what it does to the books, and how it can fail.

## Main results

* `ends_enter`, `ends_leave`, `ends_abandon` — a region's entry and its two ways out.
* `ends_catchInFlight`, `ends_claimEscape`, `ends_beginHandling` — an exception arrives
  at a region.
* `ends_raise`, `ends_forward` — an exception starts.
* `ends_shield`, `ends_popShield`, `ends_openScope`, `ends_closeScope` — guard scopes
  and their bodies.
* `ends_enterCall`, `ends_leaveCall` — traced calls.
-/

namespace Unwinding

open Context

/-! ## Shapes -/

/-- The entries of the five stacks, top first.

A region that is left compares depths only. The shape has the entries themselves, so
that laws about it say more than the runtime looks at. -/
structure Shape where
  regions : List Region := []
  dispatch : List Dispatch := []
  guards : List ScopeMark := []
  frames : List Frame := []
  records : List Record := []

namespace Shape

/-- The depths that a region or a call would remember if it were entered now. -/
def depths (shape : Shape) : Depths where
  regions := shape.regions.length
  dispatch := shape.dispatch.length
  guards := shape.guards.length
  frames := shape.frames.length
  exceptions := shape.records.length

/-- Every record needs at most the frames that are there. -/
def Anchored (shape : Shape) : Prop :=
  ∀ record ∈ shape.records, record.reachesAbove shape.frames.length = false

end Shape

/-- The part of a context that the laws speak of.

The record in flight is taken out of the record stack here and kept apart. It may lie
anywhere among the records, and moves while the regions around it are left; what the
others are is then simpler to say. -/
structure Books where
  /-- The entries of the stacks, without the record in flight. -/
  shape : Shape
  /-- The record in flight. -/
  flight : Option Record := none
  escapes : List Escape
  nextId : Nat
  messageLimit : Nat
  escapeKind : Option String

/-- A context keeps these books, and its record stack keeps to its capacity. -/
structure Represents (context : Context) (books : Books) : Prop where
  regions : context.regions.live = books.shape.regions
  dispatch : context.dispatch.live = books.shape.dispatch
  guards : context.guards.live = books.shape.guards
  frames : context.frames.live = books.shape.frames
  records : context.records.live = books.flight.toList ++ books.shape.records
  inFlight : context.inFlight = books.flight.map fun _ => books.shape.records.length
  escapes : context.escapes = books.escapes
  nextId : context.nextId = books.nextId
  messageLimit : context.messageLimit = books.messageLimit
  escapeKind : context.escapeKind = books.escapeKind
  room : context.records.live.length ≤ context.records.limit

/-! ## Records and the frames they need -/

namespace Record

/-- The exception that a record means against a list of frames, top first. -/
def against (record : Record) (frames : List Frame) : Exception where
  kind := record.kind
  message := record.message
  origin := record.origin
  frames :=
    match record.trace with
    | .live depth => (frames.drop (frames.length - depth)).reverse
    | .owned copied => copied

/-- What a record means depends on the frames that are live alone. -/
theorem toException_eq_against (record : Record) (frames : Frames) :
    record.toException frames = record.against frames.live := by
  unfold toException Record.frames against Frames.snapshot Stack.bottom
  cases record.trace with
  | live depth => simp only [frames.depth_eq]
  | owned copied => rfl

/-- The record after the frames above a depth were given up: it keeps a copy if it needs
one of those.

To detach is all or nothing for a record: it points to the live frames, or has a copy of
every frame it needs. -/
def settle (record : Record) (depth : Nat) (frames : List Frame) : Record :=
  if record.reachesAbove depth then
    { record with trace := .owned (record.against frames).frames } else record

/-- A record that needs no frame above a depth is left alone when the frames above it
are about to go. -/
theorem settle_of_not_reachesAbove {record : Record} {depth : Nat} {frames : List Frame}
    (h : record.reachesAbove depth = false) : record.settle depth frames = record := by
  simp [settle, h]

/-- When a record has been settled, it needs none of them. -/
theorem reachesAbove_settle (record : Record) (depth : Nat) (frames : List Frame) :
    (record.settle depth frames).reachesAbove depth = false := by
  unfold settle
  split
  · rfl
  · next h => simpa using h

/-- Who needs no frame above a depth needs none above a greater one. -/
theorem reachesAbove_mono {record : Record} {low high : Nat}
    (h : record.reachesAbove low = false) (hLe : low ≤ high) :
    record.reachesAbove high = false := by
  unfold reachesAbove at *
  split at h
  · next hTrace =>
      have hNot := of_decide_eq_false h
      simp only [decide_eq_false_iff_not]
      omega
  · rfl

/-- Settling a record keeps its meaning, and so does taking the frames above that depth
away afterwards. -/
theorem against_settle (record : Record) (above below : List Frame) :
    (record.settle below.length (above ++ below)).against below =
      record.against (above ++ below) := by
  unfold settle
  split
  · rfl
  · next hReaches =>
      unfold reachesAbove at hReaches
      unfold against
      cases hTrace : record.trace with
      | owned copied => rfl
      | live depth =>
          rw [hTrace] at hReaches
          have hDepth : depth ≤ below.length := by simpa using hReaches
          simp only [List.length_append]
          congr 2
          rw [List.drop_append]
          have hAbove : above.drop (above.length + below.length - depth) = [] := by
            rw [List.drop_eq_nil_iff]
            omega
          rw [hAbove, List.nil_append]
          congr 1
          omega

end Record

/-- Every record of a list, settled. -/
theorem map_settle_of_anchored {records : List Record} {depth : Nat}
    {frames : List Frame} (h : ∀ record ∈ records, record.reachesAbove depth = false) :
    records.map (fun record => record.settle depth frames) = records :=
  (List.map_congr_left fun record hMem => Record.settle_of_not_reachesAbove
    (h record hMem)).trans (List.map_id records)

/-- To detach the records above a depth settles every one of them. -/
theorem live_detachAbove (records : Records) (depth : Nat) (frames : Frames) :
    (records.detachAbove depth frames).live = records.live.map
      fun record => record.settle depth frames.live := by
  unfold Records.detachAbove
  rw [Stack.live_map]
  refine List.map_congr_left fun record _ => ?_
  unfold Record.settle Record.detach
  have := congrArg Exception.frames (Record.toException_eq_against record frames)
  simp only [Record.toException] at this
  rw [this]

namespace Represents

variable {context : Context} {books : Books}

private theorem depths (h : Represents context books) :
    context.depths = { books.shape.depths with
      exceptions := books.flight.toList.length + books.shape.records.length } := by
  unfold Context.depths Shape.depths
  rw [context.regions.depth_eq, context.dispatch.depth_eq, context.guards.depth_eq,
    context.frames.depth_eq, context.records.depth_eq, h.regions, h.dispatch, h.guards,
    h.frames, h.records, List.length_append]

/-- With nothing in flight, the depths are those of the shape. -/
theorem depths_of_grounded (h : Represents context books)
    (hFlight : books.flight = none) :
    context.depths = books.shape.depths := by
  rw [h.depths, hFlight]
  simp [Shape.depths]

/-- What a step tells observers is not in the books. -/
theorem note (h : Represents context books) (notice : Notice) :
    Represents { context with journal := notice :: context.journal } books :=
  { h with }

/-- The books count the frames that the context has. -/
theorem frames_depth (h : Represents context books) :
    context.frames.depth = books.shape.frames.length := by
  rw [context.frames.depth_eq, h.frames]

end Represents

/-! ## Entering and leaving -/

variable {context : Context} {books : Books}

/-- The innermost region moves to another state. -/
theorem ends_setState {visit : Visit} {old state : RegionState} {rest : List Region}
    (h : Represents context books)
    (hRegions : books.shape.regions = ⟨visit, old⟩ :: rest) :
    Ends (setState visit state context)
      (fun _ after => Represents after
        { books with shape.regions := ⟨visit, state⟩ :: rest })
      fun _ => False := by
  have hLive := h.regions.trans hRegions
  refine ends_bind (ends_get ?_)
  rw [Stack.top?_of_live hLive]
  simp only [if_true]
  refine ends_bind (ends_note (ends_modify ?_))
  exact { h with
    regions := by simp [Stack.modifyTop, hLive] }

/-- To enter a region puts one mark on the region stack, and for a protected one another
on the dispatch stack, and fails only for want of room. -/
theorem ends_enter {site : Site} {explicit : Bool} (h : Represents context books)
    (hFlight : books.flight = none) :
    Ends (enter site explicit context)
      (fun visit after => visit = ⟨books.nextId, site, books.shape.depths, explicit⟩ ∧
        Represents after { books with
          shape := { books.shape with
            regions :=
              ⟨visit, if explicit then .entered else .dispatching⟩ ::
              books.shape.regions
            dispatch :=
              if explicit then books.shape.dispatch else .region visit.id ::
              books.shape.dispatch
            frames := ⟨site, ""⟩ :: books.shape.frames }
          nextId := books.nextId + 1 })
      NoRoom := by
  refine ends_bind (ends_get ?_)
  refine ends_bind (ends_freshId ?_)
  rw [h.depths_of_grounded hFlight, h.nextId]
  refine ends_bind
    (ends_onRegions (fun regions hPlace => ?_) fun _ => Stack.place_error)
  have hRegions := (Stack.live_place hPlace).1
  cases explicit with
  | true =>
      refine ends_bind
        (ends_onFrames (fun frames hEnter => ?_) fun _ => Stack.place_error)
      refine ends_bind (ends_note (ends_pure ?_))
      refine ⟨rfl, ?_⟩
      exact { h with
        regions := by simp [hRegions, h.regions]
        frames := by simp [Frames.live_enter hEnter, h.frames]
        nextId := by simp }
  | false =>
      refine ends_bind (ends_onDispatch (fun dispatch hDispatch => ?_)
        fun _ => Stack.place_error)
      refine ends_bind
        (ends_onFrames (fun frames hEnter => ?_) fun _ => Stack.place_error)
      refine ends_bind (ends_note ?_)
      refine ends_bind ?_
      let visit : Visit := ⟨books.nextId, site, books.shape.depths, false⟩
      have hEntered : Represents
          { context with
            regions, dispatch, frames
            nextId := books.nextId + 1
            journal :=
              .regionMoved books.nextId site .outside .entered :: context.journal }
          { books with
            shape := { books.shape with
              regions := ⟨visit, .entered⟩ :: books.shape.regions
              dispatch := .region visit.id :: books.shape.dispatch
              frames := ⟨site, ""⟩ :: books.shape.frames }
            nextId := books.nextId + 1 } :=
        { h with
          regions := by simp [hRegions, h.regions, visit]
          dispatch := by simp [(Stack.live_place hDispatch).1, h.dispatch, visit]
          frames := by simp [Frames.live_enter hEnter, h.frames]
          nextId := rfl }
      refine (ends_setState hEntered rfl).mono
        (fun _ after hAfter => ends_pure ⟨rfl, ?_⟩) (fun _ => False.elim)
      exact hAfter

/-! ## Records that are released -/

/-- Keeping the newest record takes everything between it and a depth away. -/
theorem live_keepOnly {records : Records} {record : Record} {extra below : List Record}
    (hLive : records.live = (record :: extra) ++ below)
    (hRoom : records.live.length ≤ records.limit) :
    ∃ kept, records.keepOnly below.length (extra ++ below).length = .ok kept ∧
      kept.live = record :: below ∧
      kept.limit = records.limit := by
  have hDepth : records.depth = (extra ++ below).length + 1 := by
    rw [records.depth_eq, hLive]
    simp
  have hNot :
      ¬ ((extra ++ below).length < below.length ∨
      records.depth ≤ (extra ++ below).length) := by
    rw [hDepth, List.length_append]
    omega
  have hAll : (records.truncate ((extra ++ below).length + 1)).live =
      record :: (extra ++ below) := by
    rw [Stack.live_truncate, Stack.bottom, hDepth, Nat.sub_self, List.drop_zero, hLive]
    rfl
  obtain ⟨taken, hTake, hTaken, hTakenLimit⟩ := Stack.take_of_live hAll
  have hBelow : (taken.truncate below.length).live = below :=
    Stack.live_bottom_append hTaken rfl
  have hBelowLimit : (taken.truncate below.length).limit = records.limit := hTakenLimit
  have hFits :
      (taken.truncate below.length).live.length <
      (taken.truncate below.length).limit := by
    rw [hBelow, hBelowLimit]
    rw [hLive, List.cons_append, List.length_cons, List.length_append] at hRoom
    omega
  obtain ⟨kept, hPush, hKept, hKeptLimit⟩ := Stack.push_of_room record hFits
  refine ⟨kept, ?_, by rw [hKept, hBelow], hKeptLimit.trans hBelowLimit⟩
  unfold Records.keepOnly
  rw [if_neg hNot]
  change (records.truncate ((extra ++ below).length + 1)).take >>= _ = .ok kept
  rw [hTake]
  exact hPush

private theorem length_le_of_append {above below : List Record} {limit : Nat}
    (h : (above ++ below).length ≤ limit) :
    below.length ≤ limit := by
  rw [List.length_append] at h
  omega

/-- The records above a depth go, but for the one in flight if it is to be kept. -/
theorem ends_releaseRecords {extra below : List Record} {depth : Nat} {keep : Bool}
    (h : Represents context books) (hRecords : books.shape.records = extra ++ below)
    (hDepth : depth = below.length) :
    Ends (releaseRecords depth keep context)
      (fun _ after => Represents after { books with
        shape.records := below
        flight := if keep then books.flight else none })
      fun _ => False := by
  subst hDepth
  have hLive := h.records
  have hRoom := h.room
  rw [hRecords] at hLive
  refine ends_bind (ends_get ?_)
  rw [h.inFlight, hRecords]
  cases hFlight : books.flight with
  | none =>
      rw [hFlight] at hLive
      have hLong : context.records.live = extra ++ below := hLive
      have hBelow : (context.records.truncate below.length).live = below :=
        Stack.live_bottom_append hLong rfl
      refine ends_onRecords (fun records hOk => ?_) fun _ hError => nomatch hError
      cases hOk
      refine { h with
        records := by simpa using hBelow
        inFlight := by simp [h.inFlight, hFlight]
        room := ?_ }
      rw [hLong] at hRoom
      simp only [hBelow]
      exact length_le_of_append hRoom
  | some record =>
      rw [hFlight] at hLive
      have hNot : ¬ (extra ++ below).length < below.length := by
        rw [List.length_append]
        omega
      simp only [Option.map_some]
      rw [if_neg hNot]
      have hLong : context.records.live = (record :: extra) ++ below := hLive
      cases keep with
      | false =>
          have hBelow : (context.records.truncate below.length).live = below :=
            Stack.live_bottom_append hLong rfl
          refine ends_bind
            (ends_modify (ends_onRecords (fun records hOk => ?_) fun _ hError =>
            nomatch hError))
          cases hOk
          refine { h with
            records := by simpa using hBelow
            inFlight := rfl
            room := ?_ }
          rw [hLong] at hRoom
          simp only [hBelow]
          exact length_le_of_append hRoom
      | true =>
          obtain ⟨kept, hKeep, hKept, hLimit⟩ :=
            live_keepOnly hLong hRoom
          refine ends_bind (ends_onRecords (fun records hOk => ?_) fun error hError =>
            ?_)
          · rw [hKeep] at hOk
            cases hOk
            refine ends_modify { h with
              records := by simp [hKept]
              inFlight := rfl
              room := ?_ }
            rw [hLong, List.cons_append, List.length_cons, List.length_append] at hRoom
            simp only [hKept, hLimit, List.length_cons]
            omega
          · rw [hKeep] at hError
            cases hError

/-! ## Leaving -/

/-- The waiting escapes after a region took the newest of them, if that one is its
own. -/
def withdraw (owner : Nat) : List Escape → List Escape
  | [] => []
  | escape :: older => if escape.owner = owner then older else escape :: older

/-- The dispatch marks after a region removed its own, if that one is on top. -/
def dropOwn (visit : Visit) : List Dispatch → List Dispatch
  | [] => []
  | mark :: rest =>
      if (!visit.explicit && mark.owner == visit.id) = true then rest else mark :: rest

private theorem ends_takeEscape {owner : Nat} (h : Represents context books) :
    Ends (takeEscape owner context)
      (fun escape after => Represents after
        { books with escapes := withdraw owner books.escapes } ∧
        ((escape = none ∧ withdraw owner books.escapes = books.escapes) ∨
          ∃ newest, escape = some newest ∧ newest.owner = owner ∧
            books.escapes = newest :: withdraw owner books.escapes))
      fun _ => False := by
  refine ends_bind (ends_get ?_)
  rw [h.escapes]
  cases hEscapes : books.escapes with
  | nil =>
      exact ends_pure ⟨{ h with escapes := by simp [h.escapes, hEscapes, withdraw] },
        .inl ⟨rfl, rfl⟩⟩
  | cons newest older =>
      by_cases hOwner : newest.owner = owner
      · simp only [hOwner, if_true]
        refine ends_bind (ends_modify (ends_pure ⟨?_, .inr ⟨newest, rfl, hOwner, ?_⟩⟩))
        · exact { h with escapes := by simp [withdraw, hOwner] }
        · simp [withdraw, hOwner]
      · simp only [hOwner, if_false]
        have hKept : withdraw owner (newest :: older) = newest :: older := by
          simp [withdraw, hOwner]
        rw [hKept]
        exact ends_pure ⟨{ h with escapes := by simp [h.escapes, hEscapes] },
          .inl ⟨rfl, rfl⟩⟩

private theorem ends_dropDispatch {visit : Visit} (h : Represents context books) :
    Ends (dropDispatch visit context)
      (fun _ after => Represents after
        { books with shape.dispatch := dropOwn visit books.shape.dispatch })
      fun _ => False := by
  refine ends_bind (ends_get ?_)
  cases hDispatch : books.shape.dispatch with
  | nil =>
      have hTop : context.dispatch.top? = none := by
        rw [Stack.top?, h.dispatch, hDispatch]
        rfl
      rw [hTop]
      exact ends_pure { h with dispatch := by simp [h.dispatch, hDispatch, dropOwn] }
  | cons mark rest =>
      have hLive := h.dispatch.trans hDispatch
      rw [Stack.top?_of_live hLive]
      simp only
      by_cases hOwn : (!visit.explicit && mark.owner == visit.id) = true
      · obtain ⟨popped, hPop, hPopped⟩ := Stack.pop_of_live hLive
        rw [if_pos hOwn]
        refine ends_onDispatch (fun dispatch hOk => ?_) fun error hError => ?_
        · rw [hPop] at hOk
          cases hOk
          exact { h with dispatch := by simp [hPopped, dropOwn, hOwn] }
        · rw [hPop] at hError
          cases hError
      · rw [if_neg hOwn]
        exact ends_pure
          { h with dispatch := by simp [h.dispatch, hDispatch, dropOwn, hOwn] }

/-- The frames that records need above a depth are copied. -/
theorem ends_detachAbove {depth : Nat} (h : Represents context books) :
    Ends (detachAbove depth context)
      (fun _ after => Represents after { books with
        shape.records :=
          books.shape.records.map fun record => record.settle depth books.shape.frames
        flight :=
          books.flight.map fun record => record.settle depth books.shape.frames })
      fun _ => False := by
  refine ends_modify ?_
  exact { h with
    records := by
      rw [live_detachAbove, h.records, h.frames, List.map_append]
      cases books.flight <;> rfl
    inFlight := by
      rw [h.inFlight]
      cases books.flight <;> simp
    room := by
      rw [live_detachAbove, List.length_map]
      exact h.room }

private theorem ends_popRegion {region : Region} {rest : List Region}
    (h : Represents context books) (hRegions : books.shape.regions = region :: rest) :
    Ends (onRegions (fun regions => regions.pop.map Prod.snd) context)
      (fun _ after => Represents after { books with shape.regions := rest })
        fun _ => False := by
  obtain ⟨popped, hPop, hPopped⟩ := Stack.pop_of_live (h.regions.trans hRegions)
  refine ends_onRegions (fun regions hOk => ?_) fun error hError => ?_
  · rw [hPop] at hOk
    cases hOk
    exact { h with regions := hPopped }
  · rw [hPop] at hError
    cases hError

private theorem ends_popFrame {frame : Frame} {rest : List Frame}
    (h : Represents context books) (hFrames : books.shape.frames = frame :: rest) :
    Ends (onFrames Frames.leave context)
      (fun _ after => Represents after { books with shape.frames := rest })
        fun _ => False := by
  obtain ⟨popped, hPop, hPopped⟩ := Stack.pop_of_live (h.frames.trans hFrames)
  refine ends_onFrames (fun frames hOk => ?_) fun error hError => ?_
  · rw [Frames.leave, hPop] at hOk
    cases hOk
    exact { h with frames := hPopped }
  · rw [Frames.leave, hPop] at hError
    cases hError

/-- The check at the end of a region: only a record in flight may be there that was not
there before. -/
theorem ends_balance {visit : Visit} {unwinding : Bool} (h : Represents context books)
    (hEntry : visit.entry = books.shape.depths)
    (hMode : books.flight.isSome → unwinding = true) :
    Ends ((do
        let context ← get
        let carried := unwinding && context.inFlight == some visit.entry.exceptions
        let now := context.depths
        let exit :=
          if carried then { now with exceptions := now.exceptions - 1 } else now
        unless (exit.mismatches visit.entry).isEmpty do
          fail (.regionUnbalanced visit.site visit.entry exit) : Step Unit) context)
      (fun _ after => after = context) fun _ => False := by
  have hBalanced :
      (if (unwinding && context.inFlight == some visit.entry.exceptions) = true then
      { context.depths with exceptions := context.depths.exceptions - 1 } else
      context.depths) = visit.entry := by
    rw [h.depths, h.inFlight, hEntry]
    cases hFlight : books.flight with
    | none => simp [Shape.depths]
    | some record =>
        rw [hMode (by rw [hFlight]; rfl)]
        simp [Shape.depths]
  refine ends_bind (ends_get ?_)
  simp only [hBalanced, Depths.mismatches_isEmpty.2 rfl, if_true]
  exact ends_pure rfl

/-- What leaving a region does once no escape waits for the region. -/
theorem ends_leaveEmptied {visit : Visit} {under : Shape} {frame : Frame}
    {caught : List Record} {unwinding : Bool}
    (h : Represents context
      { books with
        shape.regions := ⟨visit, .cleanup⟩ :: under.regions
        escapes := withdraw visit.id books.escapes })
    (hDispatch : dropOwn visit books.shape.dispatch = under.dispatch)
    (hGuards : books.shape.guards = under.guards)
    (hFrames : books.shape.frames = frame :: under.frames)
    (hRecords : books.shape.records = caught ++ under.records)
    (hEntry : visit.entry = under.depths) (hAnchored : under.Anchored)
    (hMode : books.flight.isSome → unwinding = true) :
    Ends ((do
      dropDispatch visit
      let entry := visit.entry
      releaseRecords entry.exceptions unwinding
      detachAbove entry.frames
      let top := (← get).regions.top?
      onRegions fun regions => regions.pop.map Prod.snd
      onFrames Frames.leave
      if let some region := top then
        note (.regionMoved region.visit.id region.visit.site region.state .outside)
      let context ← get
      let carried := unwinding && context.inFlight == some entry.exceptions
      let now := context.depths
      let exit := if carried then { now with exceptions := now.exceptions - 1 } else now
      unless (exit.mismatches entry).isEmpty do
        fail (.regionUnbalanced visit.site entry exit) : Step Unit) context)
      (fun _ after => Represents after
        { books with
          shape := under
          flight :=
            books.flight.map fun record => record.settle under.frames.length
            books.shape.frames
          escapes := withdraw visit.id books.escapes })
      fun _ => False := by
  have hKept : (if unwinding = true then books.flight else none) = books.flight := by
    cases hFlight : books.flight with
    | none => simp
    | some record => rw [hMode (by rw [hFlight]; rfl), if_pos rfl]
  have hDepth : visit.entry.exceptions = under.records.length := by rw [hEntry]; rfl
  have hFramesDepth : visit.entry.frames = under.frames.length := by rw [hEntry]; rfl
  refine ends_bind ((ends_dropDispatch h).imp fun _ c₃ h₃ => ?_)
  refine ends_bind ((ends_releaseRecords h₃ hRecords hDepth).imp fun _ c₄ h₄ => ?_)
  refine ends_bind ((ends_detachAbove h₄).imp fun _ c₅ h₅ => ?_)
  simp only [hKept, hDispatch, hFramesDepth] at h₅
  rw [map_settle_of_anchored hAnchored] at h₅
  refine ends_bind (ends_get ?_)
  refine ends_bind ((ends_popRegion h₅ rfl).imp fun _ c₆ h₆ => ?_)
  refine ends_bind ((ends_popFrame h₆ hFrames).imp fun _ c₇ h₇ => ?_)
  have hAfter : Represents c₇
      { books with
        shape := under
        flight :=
          books.flight.map fun record => record.settle under.frames.length
          books.shape.frames
        escapes := withdraw visit.id books.escapes } :=
          { h₇ with guards := h₇.guards.trans hGuards }
  rw [Stack.top?_of_live h₅.regions]
  refine ends_bind (ends_note ?_)
  have hNoted := hAfter.note (.regionMoved visit.id visit.site .cleanup .outside)
  exact (ends_balance hNoted hEntry fun hSome => hMode (by simpa using hSome)).imp
    fun _ after hSame => hSame ▸ hNoted

/-- A region is left: everything it put on the stacks goes, and what it found on entry
is there again. Only the record of an exception that is on its way to a region further
out stays in flight. Whether an escape was dropped with the region only shows in the
journal. -/
theorem ends_leave {visit : Visit} {old : RegionState} {under : Shape} {frame : Frame}
    {caught : List Record} {unwinding : Bool} (h : Represents context books)
    (hRegions : books.shape.regions = ⟨visit, old⟩ :: under.regions)
    (hDispatch : dropOwn visit books.shape.dispatch = under.dispatch)
    (hGuards : books.shape.guards = under.guards)
    (hFrames : books.shape.frames = frame :: under.frames)
    (hRecords : books.shape.records = caught ++ under.records)
    (hEntry : visit.entry = under.depths) (hAnchored : under.Anchored)
    (hMode : books.flight.isSome → unwinding = true) :
    Ends (leave visit unwinding context)
      (fun _ after => Represents after
        { books with
          shape := under
          flight :=
            books.flight.map fun record => record.settle under.frames.length
            books.shape.frames
          escapes := withdraw visit.id books.escapes })
      fun _ => False := by
  unfold leave
  refine ends_bind ((ends_setState h hRegions).imp fun _ c₁ h₁ => ?_)
  refine ends_bind ((ends_takeEscape h₁).imp fun escape c₂ h₂ => ?_)
  cases escape with
  | none =>
      exact ends_leaveEmptied h₂.1 hDispatch hGuards hFrames hRecords hEntry hAnchored
        hMode
  | some escape =>
      exact ends_bind (ends_note
        (ends_leaveEmptied (h₂.1.note _) hDispatch hGuards hFrames hRecords hEntry
          hAnchored hMode))

/-! ## Abandoning -/

/-- The protected region that reports an escape, from the regions alone. -/
def reporterOf (regions : List Region) : Option Nat :=
  (regions.find? fun region => !region.visit.explicit && region.state ==
    .dispatching).map fun region =>
    region.visit.id

/-- The waiting escapes after another one: a region reports only the first that it is to
report. -/
def report (owner : Nat) (site : Site) (escapes : List Escape) : List Escape :=
  if escapes.head?.map Escape.owner = some owner then escapes else ⟨site, owner⟩ ::
    escapes

private theorem reconcile_of_live {frames : Frames} {extra below : List Frame}
    (hLive : frames.live = extra ++ below) :
    ∃ outcome cut, frames.reconcile below.length = .ok (outcome, cut) ∧
      cut.live = below := by
  have hDepth : frames.depth = extra.length + below.length := by
    rw [frames.depth_eq, hLive, List.length_append]
  unfold Frames.reconcile
  cases extra with
  | nil =>
      have hSame : frames.depth = below.length := by simpa using hDepth
      rw [if_neg (by omega), if_pos hSame]
      exact ⟨_, _, rfl, hLive⟩
  | cons innermost older =>
      rw [List.length_cons] at hDepth
      rw [if_neg (by omega), if_neg (by omega), Stack.top?_of_live hLive]
      exact ⟨_, _, rfl, Stack.live_bottom_append hLive rfl⟩

private theorem ends_reconcileFrames (extra : List Frame) {below : List Frame}
    {depth : Nat} (h : Represents context books)
    (hFrames : books.shape.frames = extra ++ below) (hDepth : depth = below.length) :
    Ends (reconcileFrames depth context)
      (fun _ after => Represents after { books with shape.frames := below })
        fun _ => False := by
  subst hDepth
  obtain ⟨outcome, cut, hCut, hLive⟩ := reconcile_of_live (h.frames.trans hFrames)
  refine ends_bind
    (ends_get (ends_bind
    (ends_get (ends_bind (ends_ofExcept (fun result hOk => ?_) fun e hError => ?_)))))
  · rw [hCut] at hOk
    cases hOk
    cases outcome with
    | balanced => exact ends_modify { h with frames := hLive }
    | repaired count innermost =>
        exact ends_bind (ends_note (ends_modify
          { h with frames := hLive }))
  · rw [hCut] at hError
    cases hError

/-- An explicit region is abandoned: all stacks are cut back to its entry, nothing stays
in flight, and the innermost region whose body runs has an escape to report. It fails
only if there is no such region. -/
theorem ends_abandon {visit : Visit} {under : Shape} (h : Represents context books)
    (hRegions : under.regions <:+ books.shape.regions)
    (hDispatch : under.dispatch <:+ books.shape.dispatch)
    (hGuards : under.guards <:+ books.shape.guards)
    (hFrames : under.frames <:+ books.shape.frames)
    (hRecords : under.records <:+ books.shape.records)
    (hEntry : visit.entry = under.depths) (hAnchored : under.Anchored) :
    Ends (abandon visit context)
      (fun _ after => ∃ owner, reporterOf under.regions = some owner ∧ Represents after
        { books with
          shape := under
          flight := none
          escapes := report owner visit.site books.escapes })
      fun error => reporterOf under.regions = none ∧
        error = .corrupted (.escapeUnreported visit.site) := by
  have hDepths : visit.entry.regions = under.regions.length ∧ visit.entry.dispatch =
    under.dispatch.length ∧
      visit.entry.guards = under.guards.length ∧ visit.entry.frames =
        under.frames.length ∧
      visit.entry.exceptions = under.records.length := by
    rw [hEntry]
    exact ⟨rfl, rfl, rfl, rfl, rfl⟩
  obtain ⟨hR, hD, hG, hF, hE⟩ := hDepths
  have never : ∀ e : Error, False → reporterOf under.regions = none ∧
      e = .corrupted (.escapeUnreported visit.site) :=
    fun _ => False.elim
  obtain ⟨regions, hRegions⟩ := hRegions
  obtain ⟨dispatch, hDispatch⟩ := hDispatch
  obtain ⟨guards, hGuards⟩ := hGuards
  obtain ⟨frames, hFrames⟩ := hFrames
  obtain ⟨records, hRecords⟩ := hRecords
  unfold abandon
  refine ends_bind (ends_get (ends_bind (ends_note ?_)))
  refine ends_bind ((ends_releaseRecords (h.note _) hRecords.symm hE).mono
    (fun _ c₁ h₁ => ?_) never)
  refine ends_bind ((ends_detachAbove h₁).mono (fun _ c₂ h₂ => ?_) never)
  rw [hF] at h₂
  simp only [map_settle_of_anchored hAnchored] at h₂
  refine ends_bind (ends_onRegions (fun _ hOk => ?_) fun _ hError => nomatch hError)
  cases hOk
  refine ends_bind (ends_onDispatch (fun _ hOk => ?_) fun _ hError => nomatch hError)
  cases hOk
  refine ends_bind (ends_onGuards (fun _ hOk => ?_) fun _ hError => nomatch hError)
  cases hOk
  have h₅ : Represents { c₂ with
        regions := c₂.regions.truncate visit.entry.regions
        dispatch := c₂.dispatch.truncate visit.entry.dispatch
        guards := c₂.guards.truncate visit.entry.guards }
      { books with
        shape := { under with frames := books.shape.frames }
        flight := none } :=
    { h₂ with
      regions := Stack.live_bottom_append (h₂.regions.trans hRegions.symm) hR
      dispatch := Stack.live_bottom_append (h₂.dispatch.trans hDispatch.symm) hD
      guards := Stack.live_bottom_append (h₂.guards.trans hGuards.symm) hG }
  rw [hF]
  refine ends_bind ((ends_reconcileFrames frames h₅ hFrames.symm rfl).mono
    (fun _ c₆ h₆ => ?_) never)
  refine ends_bind (ends_get ?_)
  have hReporter : reporter? c₆ = reporterOf under.regions := by
    unfold reporter? reporterOf
    rw [h₆.regions]
  rw [hReporter]
  cases hOwner : reporterOf under.regions with
  | none => exact ends_fail ⟨rfl, rfl⟩
  | some owner =>
      refine ends_bind (ends_get ?_)
      rw [h₆.escapes]
      by_cases hRepeated : books.escapes.head?.map Escape.owner = some owner
      · rw [if_pos hRepeated]
        refine ends_note ⟨owner, rfl, ?_⟩
        rw [report, if_pos hRepeated]
        exact h₆.note _
      · rw [if_neg hRepeated]
        refine ends_modify ⟨owner, rfl, ?_⟩
        rw [report, if_neg hRepeated]
        exact { h₆ with escapes := by rw [h₆.escapes] }

/-! ## Catching -/

/-- A region that waits catches the exception that is in flight, if there is one. The
record stays where it is, and nothing is in flight any more. -/
theorem ends_catchInFlight {visit : Visit} {old : RegionState} {rest : List Region}
    (h : Represents context books)
    (hRegions : books.shape.regions = ⟨visit, old⟩ :: rest) :
    Ends (catchInFlight visit context)
      (fun exception after => ∃ record, books.flight = some record ∧
        exception = record.against books.shape.frames ∧
        Represents after { books with
          shape.regions := ⟨visit, .matching⟩ :: rest
          shape.records := record :: books.shape.records
          flight := none })
      fun error => books.flight = none ∧ error = .corrupted (.noRecord visit.site) := by
  refine ends_bind ((ends_setState h hRegions).mono (fun _ c₁ h₁ => ?_)
    fun _ => False.elim)
  refine ends_bind (ends_get ?_)
  rw [h₁.inFlight]
  cases hFlight : books.flight with
  | none => exact ends_fail ⟨rfl, rfl⟩
  | some record =>
      have hRecords := h₁.records
      rw [show ({ books with shape.regions := ⟨visit, RegionState.matching⟩ :: rest } :
        Books).flight = some record from hFlight] at hRecords
      have hDepth : c₁.records.depth = books.shape.records.length + 1 := by
        rw [c₁.records.depth_eq, hRecords]
        simp
      have hGet : c₁.records.get? books.shape.records.length = some record := by
        rw [Stack.get?, if_pos (by omega), hDepth, hRecords]
        simp
      simp only [Option.map_some]
      refine ends_bind (ends_modify (ends_bind (ends_get ?_)))
      rw [hGet]
      refine ends_bind (ends_get (ends_pure ⟨record, rfl, ?_, ?_⟩))
      · rw [Record.toException_eq_against, h₁.frames]
      · exact { h₁ with
          records := hRecords
          inFlight := rfl }

private theorem ends_popDispatch {owner : Nat} {rest : List Dispatch}
    (h : Represents context books)
    (hDispatch : books.shape.dispatch = .region owner :: rest) :
    Ends (popDispatch owner .region context)
      (fun _ after => Represents after { books with shape.dispatch := rest })
        fun _ => False := by
  have hLive := h.dispatch.trans hDispatch
  obtain ⟨popped, hPop, hPopped⟩ := Stack.pop_of_live hLive
  refine ends_bind (ends_get ?_)
  rw [Stack.top?_of_live hLive]
  simp only [Dispatch.owner, Dispatch.isGuard, Bool.false_eq_true, if_false, true_and,
    if_true]
  refine ends_bind (ends_onDispatch (fun _ hOk => ?_) fun _ hError => ?_)
  · rw [hPop] at hOk
    cases hOk
    exact ends_pure { h with dispatch := hPopped }
  · rw [hPop] at hError
    cases hError

/-- The handler of a region begins: its dispatch mark goes, so what is raised in the
handler passes the region. -/
theorem ends_beginHandling {visit : Visit} {old : RegionState} {regions : List Region}
    {dispatch : List Dispatch} (h : Represents context books)
    (hRegions : books.shape.regions = ⟨visit, old⟩ :: regions)
    (hDispatch : books.shape.dispatch = .region visit.id :: dispatch) :
    Ends (beginHandling visit context)
      (fun _ after => Represents after { books with
        shape.regions := ⟨visit, .handling⟩ :: regions
        shape.dispatch := dispatch })
      fun _ => False := by
  refine ends_bind ((ends_popDispatch h hDispatch).imp fun _ c₁ h₁ => ?_)
  exact ends_setState h₁ hRegions

/-- The record of an escape that a region reports. -/
def Books.escapeRecord (books : Books) (slots : Slots) (escape : Escape) : Record where
  kind := (books.escapeKind.bind slots.get?).getD .illegalEscape
  message := (Bounded.write { limit := books.messageLimit } (escapeText escape)).1.text
  origin := escape.site
  trace := .live books.shape.frames.length

/-- A region whose body has returned takes the newest escape if that is its own, as an
exception that it has caught. -/
theorem ends_claimEscape {slots : Slots} {visit : Visit} {old : RegionState}
    {rest : List Region} (h : Represents context books) (hFlight : books.flight = none)
    (hRegions : books.shape.regions = ⟨visit, old⟩ :: rest) :
    Ends (claimEscape slots visit context)
      (fun answer after =>
        (answer = none ∧ withdraw visit.id books.escapes = books.escapes ∧
          Represents after books) ∨
        ∃ escape, books.escapes = escape :: withdraw visit.id books.escapes ∧
          escape.owner = visit.id ∧
          answer = some ((books.escapeRecord slots escape).against books.shape.frames) ∧
          Represents after { books with
            shape.regions := ⟨visit, .matching⟩ :: rest
            shape.records := books.escapeRecord slots escape :: books.shape.records
            flight := none
            escapes := withdraw visit.id books.escapes })
      NoRoom := by
  refine ends_bind ((ends_takeEscape h).mono (fun answer c₁ h₁ => ?_)
    fun _ => False.elim)
  obtain ⟨h₁, ⟨rfl, hSame⟩ | ⟨escape, rfl, hOwner, hEscapes⟩⟩ := h₁
  · refine ends_pure (.inl ⟨rfl, hSame, ?_⟩)
    rwa [hSame] at h₁
  · refine ends_bind
      (ends_get (ends_bind (ends_onRecords (fun records hRaise => ?_)
      fun _ => Stack.place_error)))
    rw [h₁.escapeKind, h₁.messageLimit] at hRaise
    have hPlaced := Records.live_raise hRaise
    obtain ⟨hLimit, hRoom⟩ := Stack.place_room hRaise
    have hLive := h₁.records
    simp only [hFlight] at hLive
    rw [h₁.frames_depth] at hPlaced
    refine ends_bind (ends_modify (ends_bind (ends_note ?_)))
    have hLength : records.depth - 1 = books.shape.records.length := by
      rw [records.depth_eq, hPlaced, hLive]
      simp
    have h₂ : Represents
        { c₁ with
          records
          inFlight := some (records.depth - 1)
          journal := .escapeReported visit.site escape.site :: c₁.journal }
        { books with
          flight := some (books.escapeRecord slots escape)
          escapes := withdraw visit.id books.escapes } :=
      { h₁ with
        records := by
          rw [hPlaced, hLive]
          rfl
        inFlight := by simp [hLength]
        room := by
          simp only [hPlaced, hLimit, List.length_cons]
          omega }
    refine ends_bind ((ends_catchInFlight h₂ hRegions).mono (fun exception c₃ h₃ => ?_)
      fun _ h => nomatch h.1)
    obtain ⟨record, hRecord, rfl, h₃⟩ := h₃
    cases hRecord
    exact ends_pure (.inr ⟨escape, hEscapes, hOwner, rfl, h₃⟩)

/-! ## Raising -/

/-- The record of an exception that is raised. -/
def Books.raiseRecord (books : Books) (table : KindTable) (kind : Kind) (site : Site)
    (written : String) : Record where
  kind := kind
  message := messageOf table kind written
  origin := site
  trace := .live books.shape.frames.length

/-- To raise puts one record on top and sends it on its way to the innermost dispatch
mark. Without one, nothing catches it, and the books say so. -/
theorem ends_raise {table : KindTable} {kind : Kind} {site : Site} {written : String}
    (h : Represents context books) (hFlight : books.flight = none) :
    Ends (raise table kind site written context)
      (fun answer after =>
        (books.shape.dispatch ≠ [] ∧ answer = none ∧
          Represents after
            { books with flight := some (books.raiseRecord table kind site written) }) ∨
        (books.shape.dispatch = [] ∧
          answer =
            some
            ((books.raiseRecord table kind site written).against books.shape.frames)))
      NoRoom := by
  refine ends_bind
    (ends_get
    (ends_bind (ends_onRecords (fun records hRaise => ?_) fun _ => Stack.place_error)))
  have hPlaced := Records.live_raise hRaise
  obtain ⟨hLimit, hRoom⟩ := Stack.place_room hRaise
  have hLive := h.records
  simp only [hFlight] at hLive
  rw [h.frames_depth, hLive] at hPlaced
  refine ends_bind (ends_get ?_)
  have hHandler : ({ context with records } : Context).hasHandler =
      !books.shape.dispatch.isEmpty := by
    unfold Context.hasHandler Stack.isEmpty
    rw [context.dispatch.depth_eq, h.dispatch]
    cases books.shape.dispatch <;> rfl
  rw [hHandler]
  cases hDispatch : books.shape.dispatch with
  | nil =>
      have hCurrent : ({ context with records } : Context).current? =
          some
            ((books.raiseRecord table kind site written).against books.shape.frames) :=
            by
        unfold Context.current?
        rw [Stack.top?_of_live hPlaced, Option.map_some, Record.toException_eq_against,
          h.frames]
        rfl
      rw [hCurrent]
      exact ends_pure (.inr ⟨rfl, rfl⟩)
  | cons mark rest =>
      have hLength : records.depth - 1 = books.shape.records.length := by
        rw [records.depth_eq, hPlaced]
        simp
      refine ends_bind (ends_modify (ends_pure (.inl ⟨List.cons_ne_nil _ _, rfl, ?_⟩)))
      exact { h with
        records := hPlaced
        inFlight := by simp [hLength]
        room := by
          simp only [hPlaced, hLimit, List.length_cons]
          rw [hLive] at hRoom
          simpa [Nat.succ_le_iff] using hRoom }

/-- To send an exception on does the same with a record that means what the exception
did. -/
theorem ends_forward {exception : Exception} (h : Represents context books)
    (hFlight : books.flight = none) :
    Ends (forward exception context)
      (fun answer after =>
        (books.shape.dispatch ≠ [] ∧ answer = none ∧
          Represents after { books with flight := some (.ofException exception) }) ∨
        (books.shape.dispatch = [] ∧ answer = some exception))
      NoRoom := by
  refine ends_bind (ends_get ?_)
  have hHandler : context.hasHandler = !books.shape.dispatch.isEmpty := by
    unfold Context.hasHandler Stack.isEmpty
    rw [context.dispatch.depth_eq, h.dispatch]
    cases books.shape.dispatch <;> rfl
  rw [hHandler]
  cases hDispatch : books.shape.dispatch with
  | nil => exact ends_pure (.inr ⟨rfl, rfl⟩)
  | cons mark rest =>
      refine ends_bind
        (ends_onRecords (fun records hPush => ?_) fun _ => Stack.push_error)
      have hPlaced := (Stack.live_push hPush).1
      obtain ⟨hLimit, hRoom⟩ := Stack.push_room hPush
      have hLive := h.records
      simp only [hFlight] at hLive
      rw [hLive] at hPlaced
      have hLength : records.depth - 1 = books.shape.records.length := by
        rw [records.depth_eq, hPlaced]
        simp
      refine ends_bind (ends_modify (ends_pure (.inl ⟨List.cons_ne_nil _ _, rfl, ?_⟩)))
      exact { h with
        records := hPlaced
        inFlight := by simp [hLength]
        room := by
          simp only [hPlaced, hLimit, List.length_cons]
          rw [hLive] at hRoom
          simpa [Nat.succ_le_iff] using hRoom }

/-! ## Guard scopes -/

/-- The first body that is registered in a scope puts the mark of the scope on the guard
stack. -/
theorem ends_openScope {site : Site} (h : Represents context books) :
    Ends (openScope site context)
      (fun mark after => mark = books.nextId ∧ Represents after { books with
        shape.guards := ⟨mark, site⟩ :: books.shape.guards
        nextId := books.nextId + 1 })
      NoRoom := by
  refine ends_bind (ends_freshId ?_)
  refine ends_bind (ends_onGuards (fun guards hPlace => ?_) fun _ => Stack.place_error)
  refine ends_pure ⟨h.nextId, ?_⟩
  exact { h with
    guards := by rw [(Stack.live_place hPlace).1, h.guards]
    nextId := by simp [h.nextId] }

/-- The mark of a scope that is on top comes off when the scope is done. -/
theorem ends_closeScope {mark : Nat} {site : Site} {rest : List ScopeMark}
    (h : Represents context books)
    (hGuards : books.shape.guards = ⟨mark, site⟩ :: rest) :
    Ends (closeScope mark context)
      (fun _ after => Represents after { books with shape.guards := rest })
        fun _ => False := by
  have hLive := h.guards.trans hGuards
  obtain ⟨popped, hPop, hPopped⟩ := Stack.pop_of_live hLive
  refine ends_bind (ends_get ?_)
  rw [Stack.top?_of_live hLive]
  simp only [if_true]
  refine ends_onGuards (fun _ hOk => ?_) fun _ hError => ?_
  · rw [hPop] at hOk
    cases hOk
    exact { h with guards := hPopped }
  · rw [hPop] at hError
    cases hError

/-- What a context holds when a guard body begins: the record in flight stays on the
record stack, but is in flight no more. -/
def Books.shielded (books : Books) (mark : Nat) : Books :=
  { books with
    shape.dispatch :=
      .guard mark (books.flight.map fun _ => books.shape.records.length) ::
      books.shape.dispatch
    shape.records := books.flight.toList ++ books.shape.records
    flight := none }

/-- Before a guard body runs, what is in flight is parked below a mark of its own, so
that nothing the body raises can take its place. -/
theorem ends_shield {mark : Nat} (h : Represents context books) :
    Ends (shield mark context) (fun _ after => Represents after (books.shielded mark))
      NoRoom := by
  refine ends_bind
    (ends_get (ends_bind (ends_onDispatch (fun dispatch hPlace => ?_)
    fun _ => Stack.place_error)))
  refine ends_modify ?_
  exact { h with
    dispatch := by
      rw [(Stack.live_place hPlace).1, h.dispatch, h.inFlight]
      rfl
    inFlight := rfl }

/-- The shield of a guard body is taken away: the record that it parked is in flight
again. -/
theorem ends_popShield {owner : Nat} {parked : Option Record} {dispatch : List Dispatch}
    {records : List Record} (h : Represents context books)
    (hFlight : books.flight = none)
    (hDispatch : books.shape.dispatch =
      .guard owner (parked.map fun _ => records.length) :: dispatch)
    (hRecords : books.shape.records = parked.toList ++ records) :
    Ends (popDispatch owner .guard context)
      (fun _ after => Represents after { books with
        shape.dispatch := dispatch
        shape.records := records
        flight := parked })
      fun _ => False := by
  have hLive := h.dispatch.trans hDispatch
  obtain ⟨popped, hPop, hPopped⟩ := Stack.pop_of_live hLive
  refine ends_bind (ends_get ?_)
  rw [Stack.top?_of_live hLive]
  simp only [Dispatch.owner, Dispatch.isGuard, if_true, true_and]
  refine ends_bind (ends_onDispatch (fun _ hOk => ?_) fun _ hError => ?_)
  · rw [hPop] at hOk
    cases hOk
    refine ends_modify ?_
    exact { h with
      dispatch := hPopped
      records := by
        have := h.records
        rwa [hFlight, hRecords] at this
      inFlight := rfl }
  · rw [hPop] at hError
    cases hError

/-! ## Traced calls -/

/-- A traced call puts its frame on the call trace, and remembers how deep the stacks
were. -/
theorem ends_enterCall {site : Site} (h : Represents context books)
    (hFlight : books.flight = none) :
    Ends (enterCall site context)
      (fun entry after => entry = books.shape.depths ∧
        Represents after { books with shape.frames := ⟨site, ""⟩ :: books.shape.frames
          })
      NoRoom := by
  refine ends_bind (ends_get ?_)
  refine ends_bind (ends_onFrames (fun frames hEnter => ?_) fun _ => Stack.place_error)
  refine ends_pure ⟨h.depths_of_grounded hFlight, ?_⟩
  exact { h with frames := by rw [Frames.live_enter hEnter, h.frames] }

/-- A traced call is left. With nothing left above it, that fails only if an exception
is in flight and the call takes its end for a return. -/
theorem ends_leaveCall {entry : Depths} {frame : Frame} {frames : List Frame}
    {unwinding : Bool} (h : Represents context books)
    (hFrames : books.shape.frames = frame :: frames)
    (hEntry : entry = ({ books.shape with frames } : Shape).depths)
    (hAnchored : ({ books.shape with frames } : Shape).Anchored) :
    Ends (leaveCall entry unwinding context)
      (fun _ after => Represents after { books with
        shape.frames := frames
        flight :=
          books.flight.map fun record => record.settle frames.length books.shape.frames
          })
      fun _ => unwinding = false ∧ books.flight.isSome := by
  have hDepth : entry.frames = frames.length := by rw [hEntry]; rfl
  unfold leaveCall
  refine ends_bind ((ends_detachAbove h).mono (fun _ c₁ h₁ => ?_) fun _ => False.elim)
  rw [hDepth] at h₁
  simp only [map_settle_of_anchored hAnchored] at h₁
  refine ends_bind ((ends_reconcileFrames [] h₁ hFrames (by rw [hDepth]; rfl)).mono
    (fun _ c₂ h₂ => ?_) fun _ => False.elim)
  refine ends_bind ((ends_popFrame h₂ rfl).mono (fun _ c₃ h₃ => ?_) fun _ => False.elim)
  cases unwinding with
  | true => exact ends_pure h₃
  | false =>
      refine ends_bind (ends_get ?_)
      cases hFlight : books.flight with
      | some record =>
          simp only [hFlight] at h₃
          split
          · exact ends_pure h₃
          · exact ends_fail ⟨rfl, rfl⟩
      | none =>
          simp only [hFlight] at h₃
          have hSame : c₃.depths = entry := by
            rw [hEntry, h₃.depths]
            simp [Shape.depths]
          rw [hSame, Depths.mismatches_isEmpty.2 rfl]
          exact ends_pure h₃

end Unwinding
