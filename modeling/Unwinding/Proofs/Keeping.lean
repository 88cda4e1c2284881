import Unwinding.Proofs.Abandonment
import Unwinding.Proofs.Conservation
import Unwinding.Proofs.Effects

/-!
# Keeping the record in flight

When a region is left by an exception, the records of the region go, and the one that is
on its way stays: it moves down to the depth that the region found. On a stack of nodes
that takes four moves. The records above it go, it is taken off, the records below it go
down to the depth, and it is put back. The last move asks for room like any other, and a
failure there would have lost the record. It cannot fail, because the place of the
record itself was given up before: this is the one use of the capacity, and the only
thing that has to be known of the stack is that its entries keep to it.

## Main results

* `Rack.keepOnly_of_inside`, `Rack.keepOnly_of_outside` : the four moves, and the two
  ways in which they may end.
* `Context.releaseRecords_answers` : releasing records cannot fail, and what is in
  flight afterwards is what was in flight before.
* `Rack.keepOnly_exact` : both, for every exception stack.
-/

namespace Unwinding

namespace Rack

section

variable {α : Type} {rack : Rack α}

/-! ## Moves -/

private theorem truncate_eq (depth : Nat) (rack : Rack α) :
    truncate depth rack = .ok (rack.used.length - depth) { rack with
      used := rack.used.drop (rack.used.length - depth)
      unused :=
        (rack.used.take (rack.used.length - depth)).reverse ++ rack.unused } := by
  have hShed := shed_eq depth 0 rack.used rack.unused
  have hTruncate :
    truncate depth rack = .ok (shed depth 0 rack.used rack.unused).1 { rack with
      used := (shed depth 0 rack.used rack.unused).2.1
      unused := (shed depth 0 rack.used rack.unused).2.2 } := rfl
  rw [hTruncate, hShed, Nat.zero_add]

private theorem take_of_cons {node : α} {used : List α} (h : rack.used = node :: used) :
    take rack = .ok node { rack with used } := by
  simp only [take, bind, EStateM.bind, popUsed_of_cons h]
  rfl

private theorem push_of_room (node : α) (h : rack.used.length < rack.limit) :
    push node rack = .ok () { rack with used := node :: rack.used } := by
  simp only [push, bind, EStateM.bind, checkCapacity_of_room h]
  rfl

private theorem stack_truncated (depth : Nat) (rack : Rack α) :
    ({ rack with
      used := rack.used.drop (rack.used.length - depth)
      unused := (rack.used.take (rack.used.length - depth)).reverse ++ rack.unused } :
        Rack α).stack =
      rack.stack.truncate depth :=
  Stack.ext rfl rfl rfl rfl

end

/-! ## Keeping one record -/

variable {rack : Rack Record} {depth index : Nat}

/-- Releases the records from a depth on, except one, which moves down to that depth;
the answer is the place where it is then. -/
def keepOnly (depth index : Nat) : Work Record Nat := do
  let rack ← get
  if index < depth ∨ rack.used.length ≤ index then
    throw (.corrupted (.recordOutside index depth rack.used.length))
  let _ ← truncate (index + 1)
  let kept ← take
  let _ ← truncate depth
  push kept
  return depth

/-- A record that is not there, or that lies below the depth, is refused before anything
is moved. -/
theorem keepOnly_of_outside (h : ¬ (depth ≤ index ∧ index < rack.used.length)) :
    keepOnly depth index rack =
      .error (.corrupted (.recordOutside index depth rack.used.length)) rack ∧
      Records.keepOnly rack.stack depth index =
        .error (.corrupted (.recordOutside index depth rack.used.length)) := by
  have hOutside : index < depth ∨ rack.used.length ≤ index := by omega
  constructor
  · unfold keepOnly
    rw [get_bind, if_pos hOutside]
    rfl
  · unfold Records.keepOnly
    exact if_pos hOutside

/-- A record that is there is the top one once those above it have gone. -/
theorem drop_of_get? {record : Record} (h : rack.stack.get? index = some record) :
    ∃ below, rack.used.drop (rack.used.length - (index + 1)) = record :: below ∧
      below.length = index := by
  unfold Stack.get? at h
  split at h
  · next hIndex =>
      have hThere : index < rack.used.length := hIndex
      have hPlace : rack.used.length - (index + 1) < rack.used.length := by omega
      have hSame : rack.used.length - 1 - index = rack.used.length - (index + 1) := by
        omega
      have hFound : rack.used[rack.used.length - 1 - index]? = some record := h
      rw [hSame, List.getElem?_eq_getElem hPlace] at hFound
      obtain rfl := Option.some.inj hFound
      refine ⟨_, List.drop_eq_getElem_cons hPlace, ?_⟩
      rw [List.length_drop]
      omega
  · cases h

/-- The four moves, on a stack that keeps to its capacity. The record had a place of its
own, so there is room for it when it is put back. -/
theorem keepOnly_of_get? {record : Record}
    (hRecord : rack.stack.get? index = some record) (hDepth : depth ≤ index)
    (hIndex : index < rack.used.length) (hBounded : rack.used.length ≤ rack.limit) :
    ∃ left, keepOnly depth index rack = .ok depth left ∧
      Records.keepOnly rack.stack depth index = .ok left.stack := by
  have hInside : ¬ (index < depth ∨ rack.used.length ≤ index) := by omega
  obtain ⟨below, hTop, hBelow⟩ := drop_of_get? hRecord
  let cut : Rack Record := { rack with
    used := record :: below
    unused := (rack.used.take (rack.used.length - (index + 1))).reverse ++ rack.unused }
  let taken : Rack Record := { cut with used := below }
  let lowered : Rack Record := { taken with
    used := below.drop (below.length - depth)
    unused := (below.take (below.length - depth)).reverse ++ taken.unused }
  let left : Rack Record := { lowered with used := record :: lowered.used }
  have hRoom : lowered.used.length < lowered.limit := by
    change (below.drop (below.length - depth)).length < rack.limit
    rw [List.length_drop]
    omega
  refine ⟨left, ?_, ?_⟩
  · have hCut : truncate (index + 1) rack = .ok (rack.used.length - (index + 1))
        cut := by rw [truncate_eq, hTop]
    have hTaken : take cut = .ok record taken := take_of_cons rfl
    have hLowered : truncate depth taken = .ok (below.length - depth) lowered :=
      truncate_eq depth taken
    have hPut : push record lowered = .ok () left := push_of_room record hRoom
    unfold keepOnly
    rw [get_bind, if_neg hInside]
    simp only [bind, EStateM.bind, hCut, hTaken, hLowered, hPut]
    rfl
  · have hCut : rack.stack.truncate (index + 1) = cut.stack := by
      rw [← stack_truncated, hTop]
    have hTaken : cut.stack.take = .ok (record, taken.stack) := rfl
    have hPut : (taken.stack.truncate depth).push record = .ok left.stack := by
      rw [← stack_truncated, Stack.push, checkCapacity_stack_of_room hRoom]
      rfl
    have hBounds : ¬ (index < depth ∨ rack.stack.depth ≤ index) := hInside
    unfold Records.keepOnly
    rw [if_neg hBounds, hCut, hTaken]
    exact hPut

/-- What is left of a stack when one record is kept: those below the depth, and that
record on top. -/
theorem keepOnly_of_inside (hDepth : depth ≤ index) (hIndex : index < rack.used.length)
    (hBounded : rack.used.length ≤ rack.limit) :
    ∃ record left, rack.stack.get? index = some record ∧ keepOnly depth index rack =
      .ok depth left ∧
      Records.keepOnly rack.stack depth index = .ok left.stack ∧
      left.stack.toList = rack.stack.toList.take depth ++ [record] := by
  obtain ⟨record, hRecord⟩ : ∃ record, rack.stack.toList[index]? = some record :=
    ⟨_, List.getElem?_eq_getElem (by rw [Stack.length_toList]; exact hIndex)⟩
  obtain ⟨left, hMoves, hStack⟩ :=
    keepOnly_of_get? (Stack.getElem?_toList.symm.trans hRecord) hDepth hIndex hBounded
  refine ⟨record, left, Stack.getElem?_toList.symm.trans hRecord, hMoves, hStack, ?_⟩
  rw [(toList_keepOnly hStack).2, hRecord]
  rfl

end Rack

/-! ## Releasing records -/

/-- An entry that is still in flight is found where it is said to be. -/
theorem getElem?_of_flightAfter {α : Type} {index place depth : Nat} {keep : Bool}
    {entries : List α} {entry : α} (hEntry : entries[index]? = some entry)
    (h : flightAfter (some index) depth keep = some place) :
    (released (some index) depth keep entries)[place]? = some entry := by
  cases keep with
  | true =>
      obtain ⟨found, hFound, hKept⟩ := getElem?_released hEntry
      obtain rfl := Option.some.inj (h.symm.trans hFound)
      exact hKept
  | false =>
      unfold flightAfter at h
      unfold released
      simp only [Bool.false_eq_true, and_false, if_false] at h ⊢
      split at h
      · next hLow =>
          obtain rfl := Option.some.inj h
          rwa [List.getElem?_take_of_lt hLow]
      · cases h

namespace Context

variable {context : Context} {depth : Nat} {keep : Bool}

/-- Nothing but the records and what is in flight is touched by releasing records, and
it cannot fail as long as the record in flight is there and the stack keeps to its
capacity. -/
theorem ends_release (hBounded : context.records.live.length ≤ context.records.limit)
    (hFlight : ∀ index, context.inFlight = some index → index < context.records.depth) :
    Ends (releaseRecords depth keep context)
      (fun _ after => ∃ records,
        after =
        { context with records, inFlight := flightAfter context.inFlight depth keep })
      fun _ => False := by
  cases keep with
  | false => exact ends_releaseAll.imp fun _ after hAfter => ⟨_, hAfter⟩
  | true =>
      refine ends_bind (ends_get ?_)
      have truncates (hNoFlight : flightAfter context.inFlight depth true =
        context.inFlight) :
          Ends (onRecords (fun records => .ok (records.truncate depth)) context)
            (fun _ after => ∃ records,
              after =
              { context with
                records
                inFlight := flightAfter context.inFlight depth true })
            fun _ => False := by
        refine ends_onRecords (fun records _ => ⟨records, ?_⟩) fun _ hError => by
          cases hError
        rw [hNoFlight]
      cases hPlace : context.inFlight with
      | none =>
          have hTruncates := truncates (by rw [hPlace]; rfl)
          rwa [hPlace] at hTruncates
      | some index =>
          dsimp only
          by_cases hLow : index < depth
          · rw [if_pos hLow]
            have hTruncates := truncates (by rw [hPlace]; exact if_pos hLow)
            rwa [hPlace] at hTruncates
          · rw [if_neg hLow, if_pos rfl]
            let rack : Rack Record :=
              { name := context.records.name
                limit := context.records.limit
                used := context.records.live
                unused := context.records.spare }
            have hIndex : index < rack.used.length := by
              change index < context.records.live.length
              rw [← context.records.depth_eq]
              exact hFlight index hPlace
            have hStack : context.records = rack.stack := Stack.ext rfl rfl rfl rfl
            obtain ⟨record, left, -, -, hKeeps, -⟩ :=
              Rack.keepOnly_of_inside (Nat.not_lt.1 hLow) hIndex hBounded
            rw [← hStack] at hKeeps
            refine ends_bind
              (ends_onRecords (fun records _ => ends_modify ⟨records, ?_⟩)
              fun error hError => ?_)
            · simp only [flightAfter, if_neg hLow, if_pos]
            · cases hKeeps.symm.trans hError

/-- Releasing records cannot fail. What is in flight afterwards, if anything, is the
record that was in flight before. -/
theorem releaseRecords_answers (depth : Nat) (keep : Bool)
    (hBounded : context.records.live.length ≤ context.records.limit)
    (hFlight : ∀ index, context.inFlight = some index → index < context.records.depth) :
    ∃ records, releaseRecords depth keep context =
        .ok ()
          { context with records, inFlight := flightAfter context.inFlight depth keep
          } ∧
      records.toList = released context.inFlight depth keep context.records.toList ∧
      ∀ place, flightAfter context.inFlight depth keep = some place →
        ∃ index record, context.inFlight = some index ∧ context.records.get? index =
          some record ∧
          records.get? place = some record := by
  obtain ⟨_, after, hAnswer, records, rfl⟩ := (ends_release hBounded hFlight).answer
  have hEntries := effect_releaseRecords.of_ok hAnswer
  have hList :
      records.toList = released context.inFlight depth keep context.records.toList :=
    congrArg Entries.records hEntries
  refine ⟨records, hAnswer, hList, fun place hPlace => ?_⟩
  cases hIndex : context.inFlight with
  | none =>
      rw [hIndex] at hPlace
      cases hPlace
  | some index =>
      obtain ⟨record, hRecord⟩ : ∃ record, context.records.toList[index]? =
          some record :=
        ⟨_,
          List.getElem?_eq_getElem
          (by rw [Stack.length_toList]; exact hFlight index hIndex)⟩
      refine ⟨index, record, rfl, Stack.getElem?_toList.symm.trans hRecord,
        Stack.getElem?_toList.symm.trans ?_⟩
      rw [hIndex] at hPlace
      rw [hList, hIndex]
      exact getElem?_of_flightAfter hRecord hPlace

end Context

/-! ## Any exception stack -/

namespace Rack

/-- Keeping one record is exact. Take an exception stack without nodes and any requests
to it, so that it may be full. A record is kept just if it is there and does not lie
below the depth: the answer is the depth, and the records are then those below the depth
and the one that was kept, as it was, on top. Otherwise that is an error, and nothing
has been moved. So where such a stack is that of a thread, and the record in flight is
there, releasing the records from a depth on never fails, touches nothing else, and
leaves in flight what was in flight before, if anything.

The stack may be full, since the record that is kept gives up its place before it asks
for one. -/
theorem keepOnly_exact (limit : Nat) (requests : List (Request Record)) :
    let rack : Rack Record := serve { name := "exceptions", limit } requests
    (∀ depth index,
      (depth ≤ index ∧ index < rack.used.length →
        ∃ record left, rack.stack.get? index = some record ∧ keepOnly depth index rack =
          .ok depth left ∧
          Records.keepOnly rack.stack depth index = .ok left.stack ∧
          left.stack.toList = rack.stack.toList.take depth ++ [record]) ∧
      (¬ (depth ≤ index ∧ index < rack.used.length) →
        keepOnly depth index rack =
          .error (.corrupted (.recordOutside index depth rack.used.length)) rack ∧
          Records.keepOnly rack.stack depth index =
            .error (.corrupted (.recordOutside index depth rack.used.length)))) ∧
      ∀ context : Context, context.records = rack.stack →
        (∀ index, context.inFlight = some index → index < rack.used.length) →
          ∀ depth keep, ∃ records, Context.releaseRecords depth keep context =
              .ok ()
                { context with
                  records
                  inFlight := flightAfter context.inFlight depth keep } ∧
            records.toList = released context.inFlight depth keep
              context.records.toList ∧
            ∀ place, flightAfter context.inFlight depth keep = some place →
              ∃ index record, context.inFlight = some index ∧
                context.records.get? index = some record ∧
                records.get? place = some record := by
  intro rack
  have hBounded : rack.used.length ≤ rack.limit := by
    obtain ⟨hLimit, hLength⟩ :=
      length_serve { name := "exceptions", limit } requests (Nat.zero_le limit)
    exact hLength.trans_eq hLimit.symm
  refine ⟨fun depth index => ⟨fun hInside => ?_, keepOnly_of_outside⟩,
    fun context hRecords hFlight depth keep => ?_⟩
  · exact keepOnly_of_inside hInside.1 hInside.2 hBounded
  · exact Context.releaseRecords_answers depth keep (hRecords ▸ hBounded)
      (hRecords ▸ hFlight)

/-- Three records fill an exception stack that was laid out with room for one. -/
def fillsUp : List (Request Record) :=
  [.reserve 1 default, .alloc default,
    .writeTop fun _ => ⟨.illegalEscape, "first", ⟨"main", 1, "main"⟩, .live 1⟩,
    .push ⟨.illegalEscape, "second", ⟨"main", 2, "main"⟩, .live 1⟩,
    .push ⟨.illegalEscape, "third", ⟨"main", 3, "main"⟩, .owned []⟩]

/-- The law speaks of a full stack: its second record is kept, at the bottom, and
released to the bottom as the one in flight. -/
theorem keepOnly_exact_of_fillsUp :
    let rack : Rack Record := serve { name := "exceptions", limit := 3 } fillsUp
    let context : Context :=
      { Context.new {} {} with records := rack.stack, inFlight := some 1 }
    rack.used.length = 3 ∧
      (∃ left, keepOnly 0 1 rack = .ok 0 left ∧ left.stack.toList.map Record.message =
        ["second"]) ∧
      keepOnly 1 3 rack = .error (.corrupted (.recordOutside 3 1 3)) rack ∧
      ∃ records, Context.releaseRecords 0 true context =
        .ok () { context with records, inFlight := some 0 } ∧
        records.toList.map Record.message = ["second"] := by
  intro rack context
  obtain ⟨hKeeps, hReleases⟩ := keepOnly_exact 3 fillsUp
  have hLength : rack.used.length = 3 := by decide +kernel
  obtain ⟨record, left, hRecord, hMoves, -, hLeft⟩ := (hKeeps 0 1).1 (by decide +kernel)
  have hSecond : (rack.stack.get? 1).map Record.message = some "second" := by
    decide +kernel
  have hMessage : record.message = "second" := by
    rw [hRecord] at hSecond
    exact Option.some.inj hSecond
  obtain ⟨records, hReleased, hList, -⟩ := hReleases context rfl
    (fun index hIndex => by cases hIndex; decide +kernel) 0 true
  refine ⟨hLength, ⟨left, hMoves, ?_⟩, ((hKeeps 1 3).2 (by decide +kernel)).1, records,
    hReleased, ?_⟩
  · rw [hLeft]
    exact congrArg (fun message => [message]) hMessage
  · rw [hList]
    decide +kernel

end Rack

end Unwinding
