import Unwinding.Proofs.Footing
import Unwinding.Proofs.GuardBodies
import Unwinding.Proofs.Lineage

/-!
# The newest record

A thread that is asked for its current exception looks at the newest record. That is the
one in hand only if everything above it has been released again. The one thing that
leaves a record behind is foreign code that stops a raise: the runtime is not told, and
the record lies there until a region around it is left.

A `Pile` remembers for each record what was raised, and forgets it when its raise is
stopped. `Piled` accounts for what is not forgotten: there is one record for each region
that has caught an exception, for each guard body that holds one up and for the
exception in flight, in the order in which these lie in the ledger, and no other.

## Main results

* `Heaped.turns` — what a deed does to the records that are kept.
* `truthful_of_heaps` — in a run that closes in turn, code of a handler and guard bodies
  that hold up an exception find it as the current one, unless a record that was left
  behind lies above its own. No record is left behind if no raise is stopped.
* `leftover_misleads` — a record that was left behind is taken for the exception in
  hand.
-/

namespace Unwinding

open Context

/-! ## Records that are left behind -/

/-- For each record of a thread, oldest first, what was raised; nothing for a record
that was left behind when foreign code stopped its raise.

The pile is followed along a run and looked at by nothing. It tells records that still
matter from those that foreign code has stranded, which the stack itself cannot tell
apart. -/
abbrev Pile := List (Option Raised)

namespace Pile

/-- What is remembered of the records, oldest first. -/
def kept (pile : Pile) : List Raised :=
  pile.filterMap id

/-- The pile after a deed. A region that catches an exception takes its record back,
should it have been left behind. -/
def after (pile : Pile) (entries : Entries) : Deed → Pile
  | .opens => []
  | .closes => []
  | .raises kind message origin => pile ++ [some ⟨kind, message, origin, entries.sites⟩]
  | .reports _ exception =>
      pile ++
        [some ⟨exception.kind, exception.message, exception.origin, entries.sites⟩]
  | .forwards exception => pile ++ [some exception.raised]
  | .leaves visit unwinding _ =>
      released entries.inFlight visit.entry.exceptions unwinding pile
  | .abandons visit => released entries.inFlight visit.entry.exceptions false pile
  | .catches _ exception =>
      match entries.inFlight with
      | some index => pile.set index (some exception.raised)
      | none => pile
  | .stops =>
      match entries.inFlight with
      | some index => pile.set index none
      | none => pile
  | _ => pile

/-- A record that is kept, and above which all are left behind. -/
structure Newest (pile : Pile) (index : Nat) (raised : Raised) : Prop where
  found : pile[index]? = some (some raised)
  above : kept (pile.drop (index + 1)) = []

/-- A record that is left behind, as are all above it. -/
structure Stale (pile : Pile) (index : Nat) : Prop where
  found : pile[index]? = some none
  above : kept (pile.drop (index + 1)) = []

section

variable {pile : Pile} {index depth : Nat} {raised : Raised}

@[simp] theorem kept_nil : kept [] = [] := rfl

@[simp] theorem kept_append (pile more : Pile) :
    kept (pile ++ more) = kept pile ++ kept more :=
  List.filterMap_append

@[simp] theorem kept_none (pile : Pile) : kept (none :: pile) = kept pile := rfl

@[simp] theorem kept_some (raised : Raised) (pile : Pile) :
    kept (some raised :: pile) = raised :: kept pile := rfl

private theorem kept_split (pile : Pile) (depth : Nat) :
    kept pile = kept (pile.take depth) ++ kept (pile.drop depth) := by
  rw [← kept_append, List.take_append_drop]

/-- The newest record, if it is kept, is the last one that is. -/
theorem getLast?_of_kept {before : List Raised} (h : kept pile = before ++ [raised])
    (hTop : pile.getLast? ≠ some none) :
    pile.getLast? = some (some raised) := by
  obtain rfl | ⟨rest, top, rfl⟩ := List.eq_nil_or_concat pile
  · exact absurd h (by simp)
  · rw [List.concat_eq_append] at h hTop ⊢
    rw [List.getLast?_concat] at hTop ⊢
    cases top with
    | none => exact absurd rfl hTop
    | some found =>
        rw [kept_append, kept_some, kept_nil] at h
        obtain ⟨-, hSame⟩ := List.append_inj' h rfl
        rw [List.cons.inj hSame |>.1]

/-- Where nothing is kept and nothing was left behind, nothing is. -/
theorem eq_nil_of_kept (h : kept pile = []) (hWhole : none ∉ pile) : pile = [] := by
  cases pile with
  | nil => rfl
  | cons top rest =>
      cases top with
      | none => exact absurd List.mem_cons_self hWhole
      | some raised => cases h

private theorem kept_drop_append_none (hLow : depth ≤ pile.length)
    (h : kept (pile.drop depth) = []) :
    kept ((pile ++ [none]).drop depth) = [] := by
  rw [List.drop_append_of_le_length hLow, kept_append, h]
  rfl

/-- The newest record that is kept is one of the pile. -/
theorem Newest.lt_length (h : Newest pile index raised) : index < pile.length :=
  (List.getElem?_eq_some_iff.1 h.found).1

/-- A record that is left behind is one of the pile. -/
theorem Stale.lt_length (h : Stale pile index) : index < pile.length :=
  (List.getElem?_eq_some_iff.1 h.found).1

private theorem Newest.append_none (h : Newest pile index raised) :
    Newest (pile ++ [none]) index raised where
  found := by
    rw [List.getElem?_append_left h.lt_length]
    exact h.found
  above := kept_drop_append_none h.lt_length h.above

private theorem Stale.append_none (h : Stale pile index) :
    Stale (pile ++ [none]) index where
  found := by
    rw [List.getElem?_append_left h.lt_length]
    exact h.found
  above := kept_drop_append_none h.lt_length h.above

private theorem Stale.take (h : Stale pile index) (hLow : index < depth) :
    Stale (pile.take depth) index where
  found := by
    rw [List.getElem?_take_of_lt hLow]
    exact h.found
  above := by
    have hAbove := h.above
    rw [kept_split _ (depth - (index + 1)), List.append_eq_nil_iff] at hAbove
    rw [List.drop_take]
    exact hAbove.1

/-- A record that is left behind on top of others. -/
theorem stale_concat (pile : Pile) : Stale (pile ++ [none]) pile.length where
  found := by simp
  above := by simp

private theorem newest_concat (pile : Pile) (raised : Raised) :
    Newest (pile ++ [some raised]) pile.length raised where
  found := by simp
  above := by simp

/-- A raise that is stopped leaves its record behind. -/
theorem Newest.stale (h : Newest pile index raised) :
    Stale (pile.set index none) index where
  found := List.getElem?_set_self h.lt_length
  above := by
    rw [List.drop_set_of_lt (Nat.lt_succ_self index)]
    exact h.above

/-- A record that is left behind need not be forgotten again. -/
theorem Stale.set_none (h : Stale pile index) : pile.set index none = pile := by
  obtain ⟨hLow, hHere⟩ := List.getElem?_eq_some_iff.1 h.found
  rw [← hHere, List.set_getElem_self]

private theorem set_none (h : index < pile.length) :
    pile.set index none = pile.take index ++ none :: pile.drop (index + 1) := by
  rw [List.set_eq_take_append_cons_drop, if_pos h]

private theorem take_set_none (h : depth ≤ index) :
    (pile.set index none).take depth = pile.take depth :=
  List.take_set_of_le h

end

end Pile

open Pile

/-! ## What the pile holds for a ledger -/

/-- The records that a ledger accounts for, and nothing else is kept. The list of flags
says which guard bodies hold up an exception, and the floor is the number of records
that the innermost region found. -/
inductive Piled : List Extent → List (Nat × Option Nat) → List Bool → Nat → Pile → Prop
  | thread {pile : Pile} (bare : kept pile = []) : Piled [.thread] [] [] 0 pile
  | call {ledger : List Extent} {parked : List (Nat × Option Nat)}
      {shelters : List Bool} {floor : Nat} {pile : Pile}
      {entry : Depths} (below : Piled ledger parked shelters floor pile) :
      Piled (.call entry :: ledger) parked shelters floor pile
  | scope {ledger : List Extent} {parked : List (Nat × Option Nat)}
      {shelters : List Bool} {floor : Nat} {pile : Pile}
      {mark : Nat} (below : Piled ledger parked shelters floor pile) :
      Piled (.scope mark :: ledger) parked shelters floor pile
  /-- A guard body that holds up no exception: it parks nothing, or a record that was
  left behind. -/
  | bare {ledger : List Extent} {parked : List (Nat × Option Nat)}
      {shelters : List Bool} {floor : Nat} {pile : Pile}
      {mark : Nat} {place : Option Nat}
      (below : Piled ledger parked shelters floor pile)
      (idle : ∀ index, place = some index → Stale pile index) :
      Piled (.guardBody mark :: ledger) ((mark, place) :: parked) (false :: shelters)
        floor pile
  | shelters {ledger : List Extent} {parked : List (Nat × Option Nat)}
      {shelters : List Bool} {floor : Nat} {pile : Pile}
      {mark index : Nat} {raised : Raised}
      (below : Piled ledger parked shelters floor (pile.set index none))
      (newest : Newest pile index raised) (isOwn : floor ≤ index) :
      Piled (.guardBody mark :: ledger) ((mark, some index) :: parked)
        (true :: shelters) floor pile
  | region {ledger : List Extent} {parked : List (Nat × Option Nat)}
      {shelters : List Bool} {floor : Nat} {pile : Pile}
      {visit : Visit}
      (below : Piled ledger parked shelters floor (pile.take visit.entry.exceptions))
      (isLow : visit.entry.exceptions ≤ pile.length)
      (isHigh : floor ≤ visit.entry.exceptions)
      (bare : kept (pile.drop visit.entry.exceptions) = []) :
      Piled (.region visit :: ledger) parked shelters visit.entry.exceptions pile
  /-- A protected region has the record of the exception that it has caught. -/
  | protecting {ledger : List Extent} {parked : List (Nat × Option Nat)}
      {shelters : List Bool} {floor : Nat} {pile : Pile}
      {visit : Visit} {phase : Phase}
      (below : Piled ledger parked shelters floor (pile.take visit.entry.exceptions))
      (isLow : visit.entry.exceptions ≤ pile.length)
      (isHigh : floor ≤ visit.entry.exceptions)
      (own : kept (pile.drop visit.entry.exceptions) =
        phase.caught?.toList.map Exception.raised) :
      Piled (.protecting visit phase :: ledger) parked shelters visit.entry.exceptions
        pile

namespace Piled

variable {ledger : List Extent} {parked : List (Nat × Option Nat)}
    {shelters : List Bool} {floor : Nat} {pile : Pile}

private theorem floor_le (h : Piled ledger parked shelters floor pile) :
    floor ≤ pile.length := by
  induction h with
  | thread bare => exact Nat.zero_le _
  | call below ih => exact ih
  | scope below ih => exact ih
  | bare below idle ih => exact ih
  | shelters below newest isOwn ih =>
      rw [List.length_set] at ih
      exact ih
  | region below isLow isHigh bare ih => exact isLow
  | protecting below isLow isHigh own ih => exact isLow

/-- One more record that is left behind changes nothing. -/
theorem append_none (h : Piled ledger parked shelters floor pile) :
    Piled ledger parked shelters floor (pile ++ [none]) := by
  have lies {depth : Nat} {pile : Pile} (hLow : depth ≤ pile.length) :
      (pile ++ [none]).take depth = pile.take depth ∧
        kept ((pile ++ [none]).drop depth) = kept (pile.drop depth) := by
    refine ⟨List.take_append_of_le_length hLow, ?_⟩
    rw [List.drop_append_of_le_length hLow, kept_append]
    exact List.append_nil _
  induction h with
  | thread bare => exact .thread (by rw [kept_append, bare]; rfl)
  | call below ih => exact .call ih
  | scope below ih => exact .scope ih
  | bare below idle ih =>
      exact .bare ih fun index hPlace => (idle index hPlace).append_none
  | shelters below newest isOwn ih =>
      refine .shelters ?_ newest.append_none isOwn
      rw [List.set_append_left _ _ newest.lt_length]
      exact ih
  | region below isLow isHigh bare ih =>
      obtain ⟨hTake, hDrop⟩ := lies isLow
      refine .region (by rw [hTake]; exact below) ?_ isHigh (by rw [hDrop]; exact bare)
      rw [List.length_append]
      omega
  | protecting below isLow isHigh own ih =>
      obtain ⟨hTake, hDrop⟩ := lies isLow
      refine .protecting (by rw [hTake]; exact below)
        ?_ isHigh (by rw [hDrop]; exact own)
      rw [List.length_append]
      omega

/-! Each extent on top of a ledger says how the rest is piled. -/

private theorem of_region {visit : Visit}
    (h : Piled (.region visit :: ledger) parked shelters floor pile) :
    floor = visit.entry.exceptions ∧ visit.entry.exceptions ≤ pile.length ∧
      ∃ old ≤ visit.entry.exceptions,
        Piled ledger parked shelters old (pile.take visit.entry.exceptions) := by
  cases h with
  | region below isLow isHigh bare => exact ⟨rfl, isLow, _, isHigh, below⟩

private theorem of_protecting {visit : Visit} {phase : Phase}
    (h : Piled (.protecting visit phase :: ledger) parked shelters floor pile) :
    floor = visit.entry.exceptions ∧ visit.entry.exceptions ≤ pile.length ∧
      ∃ old ≤ visit.entry.exceptions,
        Piled ledger parked shelters old (pile.take visit.entry.exceptions) := by
  cases h with
  | protecting below isLow isHigh own => exact ⟨rfl, isLow, _, isHigh, below⟩

/-- A region that is left takes the records above its entry off the pile, and leaves the
rest as the ledger below it says. -/
theorem of_left {visit : Visit} {unwinding : Bool} {fate : Fate}
    (h : Piled ledger parked shelters floor pile)
    (hFits : (Deed.leaves visit unwinding fate).Fits ledger) :
    floor = visit.entry.exceptions ∧ visit.entry.exceptions ≤ pile.length ∧
      ∃ old ≤ visit.entry.exceptions,
        Piled ledger.tail parked shelters old (pile.take visit.entry.exceptions) := by
  obtain hRegion | ⟨phase, hProtecting⟩ := hFits
  · obtain ⟨rest, rfl⟩ := List.head?_eq_some_iff.1 hRegion
    exact h.of_region
  · obtain ⟨rest, rfl⟩ := List.head?_eq_some_iff.1 hProtecting
    exact h.of_protecting

end Piled

/-! ## One deed -/

/-- What is on the stacks of a thread, in flight and in its pile. -/
inductive Heaped (ledger : List Extent) (entries : Entries) :
    Bool → List Bool → Pile → Prop
  /-- Nothing is in flight, or a record that was left behind. -/
  | rests {shelters : List Bool} {pile : Pile} {floor : Nat}
    (counts : pile.length = entries.records.length)
    (piled : Piled ledger (parkings? entries.dispatch) shelters floor pile)
    (idle : ∀ index, entries.inFlight = some index → Stale pile index) :
      Heaped ledger entries false shelters pile
  | flies {shelters : List Bool} {pile : Pile} {floor index : Nat} {raised : Raised}
      (counts : pile.length = entries.records.length)
      (piled : Piled ledger (parkings? entries.dispatch)
        shelters floor (pile.set index none))
      (inFlight : entries.inFlight = some index) (newest : Newest pile index raised)
      (isOwn : floor ≤ index) :
      Heaped ledger entries true shelters pile

private theorem length_released {α β : Type} {entries : List α} {others : List β}
    (h : entries.length = others.length) (inFlight : Option Nat) (depth : Nat)
    (keep : Bool) :
    (released inFlight depth keep entries).length =
    (released inFlight depth keep others).length := by
  have hUnits : entries.map (fun _ => ()) = others.map (fun _ => ()) := by
    rw [List.map_const', List.map_const', h]
  have hSame :=
    congrArg (fun units => (released inFlight depth keep units).length) hUnits
  rw [← map_released, ← map_released, List.length_map, List.length_map] at hSame
  exact hSame

section

variable {ledger : List Extent} {before after : Entries} {deed : Deed} {flying : Bool}
  {shelters : List Bool} {pile : Pile}

/-- Where a region gives its records back, what it found is all there is again, and the
exception in flight if it is kept. -/
theorem Heaped.released {rest : List Extent} {depth : Nat} {keep : Bool}
    (h : Heaped ledger before flying shelters pile)
    (hPiled : ∀ floor pile,
      Piled ledger (parkings? before.dispatch) shelters floor pile →
      floor = depth ∧ depth ≤ pile.length ∧ ∃ old ≤ depth,
        Piled rest (parkings? after.dispatch) shelters old (pile.take depth))
    (hRecords : after.records.length =
      (Unwinding.released before.inFlight depth keep before.records).length)
    (hFlight : after.inFlight = flightAfter before.inFlight depth keep) :
    Heaped rest after (flying && keep) shelters
      (Unwinding.released before.inFlight depth keep pile) := by
  have counted (hCounts : pile.length = before.records.length) :
      (Unwinding.released before.inFlight depth keep pile).length =
        after.records.length :=
    (length_released hCounts _ _ _).trans hRecords.symm
  cases h with
  | @rests _ _ floor counts piled idle =>
      obtain ⟨-, hLow, old, hOld, hBelow⟩ := hPiled floor pile piled
      have hCounts := counted counts
      cases hPlace : before.inFlight with
      | none =>
          rw [hPlace] at hFlight hCounts
          exact .rests hCounts hBelow fun index hIndex => by
            cases hFlight.symm.trans hIndex
      | some index =>
          have hIdle := idle index hPlace
          rw [hPlace] at hFlight hCounts
          simp only [Unwinding.released, flightAfter] at hFlight hCounts ⊢
          by_cases hHigh : depth ≤ index
          · rw [if_neg (by omega)] at hFlight
            cases keep with
            | false =>
                simp only [Bool.false_eq_true, and_false, if_false] at hFlight hCounts ⊢
                exact .rests hCounts hBelow fun index hIndex => by
                  cases hFlight.symm.trans hIndex
            | true =>
                simp only [hHigh, and_self, if_true, hIdle.found] at hFlight hCounts ⊢
                refine .rests hCounts hBelow.append_none fun place hHere => ?_
                cases hFlight.symm.trans hHere
                have hStale := stale_concat (pile.take depth)
                rwa [List.length_take, Nat.min_eq_left hLow] at hStale
          · rw [if_pos (by omega)] at hFlight
            simp only [hHigh, false_and, if_false] at hCounts ⊢
            refine .rests hCounts hBelow fun place hHere => ?_
            cases hFlight.symm.trans hHere
            exact hIdle.take (by omega)
  | @flies _ _ floor index raised counts piled inFlight newest isOwn =>
      obtain ⟨rfl, hLow, old, hOld, hBelow⟩ := hPiled floor _ piled
      rw [take_set_none isOwn] at hBelow
      rw [List.length_set] at hLow
      have hCounts := counted counts
      have hTake : (pile.take floor).length = floor := by
        rw [List.length_take, Nat.min_eq_left hLow]
      simp only [inFlight, Unwinding.released, flightAfter] at hFlight hCounts ⊢
      rw [if_neg (by omega)] at hFlight
      cases keep with
      | false =>
          simp only [Bool.false_eq_true, and_false, if_false] at hFlight hCounts ⊢
          exact .rests hCounts hBelow fun index hIndex => by
            cases hFlight.symm.trans hIndex
      | true =>
          simp only [isOwn, and_self, if_true, newest.found, Option.toList_some]
            at hFlight hCounts ⊢
          have hNewest := newest_concat (pile.take floor) raised
          rw [hTake] at hNewest
          refine .flies hCounts ?_ hFlight hNewest hOld
          rw [List.set_append_right _ _ (by omega), hTake, Nat.sub_self]
          exact hBelow.append_none

/-- A deed that touches neither the records nor what is in flight. -/
theorem Heaped.relay {target : List Extent}
    (h : Heaped ledger before flying shelters pile)
    (hPiled : ∀ floor pile,
      Piled ledger (parkings? before.dispatch) shelters floor pile →
      Piled target (parkings? after.dispatch) shelters floor pile)
    (hRecords : after.records.length = before.records.length)
    (hFlight : after.inFlight = before.inFlight) :
    Heaped target after flying shelters pile := by
  cases h with
  | rests counts piled idle =>
      exact .rests (counts.trans hRecords.symm) (hPiled _ _ piled) fun index hIndex =>
        idle index (hFlight ▸ hIndex)
  | flies counts piled inFlight newest isOwn =>
      exact .flies (counts.trans hRecords.symm) (hPiled _ _ piled)
        (hFlight.trans inFlight) newest isOwn

/-- A raise puts a record on top and in flight. -/
theorem Heaped.raises {raised : Raised} (h : Heaped ledger before false shelters pile)
    (hMarks : after.dispatch = before.dispatch)
    (hRecords : after.records.length = before.records.length + 1)
    (hFlight : after.inFlight = some before.records.length) :
    Heaped ledger after true shelters (pile ++ [some raised]) := by
  cases h with
  | rests counts piled idle =>
      refine .flies ?_ ?_ (counts ▸ hFlight) (newest_concat pile raised) piled.floor_le
      · rw [List.length_append, counts, hRecords]
        rfl
      · rw [List.set_append_right _ _ (Nat.le_refl _), Nat.sub_self, hMarks]
        exact piled.append_none

/-- A region that catches an exception holds its record from then on. It held nothing
until then, so what it takes is all that it holds. -/
theorem Heaped.catches {visit : Visit} {exception : Exception} {rest : List Extent}
    {index : Nat}
    (h : Heaped (.protecting visit .body :: rest) before flying shelters pile)
    (hInFlight : before.inFlight = some index) (hOwn : visit.entry.exceptions ≤ index)
    (hMarks : after.dispatch = before.dispatch)
    (hRecords : after.records.length = before.records.length)
    (hFlight : after.inFlight = none) :
    Heaped (.protecting visit (.clauses exception) :: rest) after false shelters
      (pile.set index (some exception.raised)) := by
  have takes {floor : Nat} (hCounts : pile.length = before.records.length)
    (hLow : index < pile.length)
    (hPiled : Piled (.protecting visit .body :: rest) (parkings? before.dispatch)
        shelters floor (pile.set index none)) :
      Heaped (.protecting visit (.clauses exception) :: rest) after false shelters
        (pile.set index (some exception.raised)) := by
    cases hPiled with
    | protecting below isLow isHigh own =>
        rw [List.length_set] at isLow
        rw [take_set_none hOwn, ← hMarks] at below
        have hBare : kept ((pile.set index none).drop visit.entry.exceptions) = [] :=
          own
        have hCaught :
            kept
            ((pile.set index (some exception.raised)).drop visit.entry.exceptions) =
            [exception.raised] := by
          rw [List.drop_set, if_neg (by omega)] at hBare ⊢
          have hShort :
              index - visit.entry.exceptions <
              (pile.drop visit.entry.exceptions).length := by
            rw [List.length_drop]
            omega
          rw [set_none hShort, kept_append, kept_none, List.append_eq_nil_iff] at hBare
          rw [List.set_eq_take_append_cons_drop, if_pos hShort, kept_append, kept_some,
            hBare.1, hBare.2]
          rfl
        refine .rests (by rw [List.length_set]; exact hCounts.trans hRecords.symm)
          (.protecting (by rw [List.take_set_of_le hOwn]; exact below)
            (by rw [List.length_set]; exact isLow) isHigh hCaught)
          fun place hPlace => by cases hFlight.symm.trans hPlace
  cases h with
  | rests counts piled idle =>
      have hIdle := idle index hInFlight
      rw [← hIdle.set_none] at piled
      exact takes counts hIdle.lt_length piled
  | flies counts piled inFlight newest isOwn =>
      cases hInFlight.symm.trans inFlight
      exact takes counts newest.lt_length piled

/-- A deed of code that runs. -/
def Deed.IsRun : Deed → Prop
  | .enters _ => True
  | .reports _ _ => True
  | .raises _ _ _ => True
  | .forwards _ => True
  | .unshields _ => True
  | _ => False

/-- What a deed does to the records that are kept. -/
theorem Heaped.turns (h : Heaped ledger before flying shelters pile)
    (hNested : Nested .thread ledger before) (hTurns : deed.Turns before after)
    (hFits : deed.Fits ledger) (hRuns : deed.IsRun → flying = false)
    (hCatches : ∀ visit exception index, deed = .catches visit exception →
      before.inFlight = some index →
      visit.entry.exceptions ≤ index) :
    Heaped (deed.move.apply ledger) after (deed.flies flying shelters)
      (deed.parks flying shelters) (pile.after before deed) := by
  cases hTurns with
  | quiet isQuiet =>
      cases deed with
      | rests => exact h
      | declines exception => exact h
      | recalls name => exact h
      | closesScope mark =>
          obtain ⟨rest, rfl⟩ := List.head?_eq_some_iff.1 hFits
          refine h.relay (fun floor pile hPiled => ?_) rfl rfl
          cases hPiled with
          | scope below => exact below
      | stops =>
          simp only [Pile.after]
          cases h with
          | rests counts piled idle =>
              cases hPlace : before.inFlight with
              | none => exact .rests counts piled idle
              | some index =>
                  dsimp only
                  rw [(idle index hPlace).set_none]
                  exact .rests counts piled idle
          | @flies _ _ _ index _ counts piled inFlight newest isOwn =>
              rw [inFlight]
              refine .rests (by rw [List.length_set]; exact counts) piled
                fun place hPlace => ?_
              cases inFlight.symm.trans hPlace
              exact newest.stale
      | _ => exact isQuiet.elim
  | annotates => exact h.relay (fun _ _ hPiled => hPiled) rfl rfl
  | opensScope number => exact h.relay (fun _ _ hPiled => .scope hPiled) rfl rfl
  | entersCall measured => exact h.relay (fun _ _ hPiled => .call hPiled) rfl rfl
  | @leavesCall _ entry above below isFramed count =>
      obtain ⟨rest, rfl⟩ := List.head?_eq_some_iff.1 hFits
      refine h.relay (fun floor pile hPiled => ?_) (List.length_map _) rfl
      cases hPiled with
      | call below => exact below
  | @enters _ visit state number measured =>
      obtain rfl := hRuns trivial
      cases h with
      | @rests _ _ floor counts piled idle =>
          have hEntry : visit.entry.exceptions = pile.length :=
            measured.exceptions.trans counts.symm
          have hBelow :
              Piled ledger (parkings? before.dispatch) shelters floor
              (pile.take visit.entry.exceptions) := by
            rw [hEntry, List.take_length]
            exact piled
          have hBare : kept (pile.drop visit.entry.exceptions) = [] := by
            rw [hEntry, List.drop_length]
            rfl
          have hHigh : floor ≤ visit.entry.exceptions := hEntry ▸ piled.floor_le
          have hEntered :
            Piled (entered visit.explicit visit :: ledger) (parkings? before.dispatch)
              shelters
              visit.entry.exceptions pile := by
            unfold entered
            split
            · exact .region hBelow (Nat.le_of_eq hEntry) hHigh hBare
            · exact .protecting hBelow (Nat.le_of_eq hEntry) hHigh hBare
          have hMarked : Piled (entered visit.explicit visit :: ledger)
              (parkings? (if visit.explicit = true then before.dispatch else
                .region visit.id :: before.dispatch)) shelters
              visit.entry.exceptions pile := by
            split <;> exact hEntered
          exact .rests counts hMarked idle
  | @leaves _ visit unwinding fate frame frames isFramed count =>
      refine h.released (fun floor pile hPiled => ?_) (List.length_map _) rfl
      rw [hNested.parkings_leave fate hFits]
      exact hPiled.of_left hFits
  | @abandons _ visit above below isFramed count =>
      have hReleased : Heaped ledger.tail (before.abandon visit below) (flying && false)
        shelters
          (Unwinding.released before.inFlight visit.entry.exceptions false pile) := by
        refine h.released (fun floor pile hPiled => ?_) (List.length_map _) rfl
        rw [hNested.dispatch_abandon hFits]
        obtain ⟨rest, rfl⟩ := List.head?_eq_some_iff.1 hFits
        exact hPiled.of_region
      rw [Bool.and_false] at hReleased
      exact hReleased
  | @catches _ visit region outer index record innermost inFlight found =>
      obtain ⟨rest, rfl⟩ := List.head?_eq_some_iff.1 hFits
      simp only [Pile.after, inFlight]
      exact h.catches inFlight (hCatches visit _ index rfl inFlight) rfl rfl rfl
  | @reports _ visit region outer kind message origin innermost =>
      obtain rfl := hRuns trivial
      obtain ⟨rest, rfl⟩ := List.head?_eq_some_iff.1 hFits
      cases h with
      | rests counts piled idle =>
          have hRaised := raised_live kind message origin before
          cases piled with
          | protecting below isLow isHigh own =>
              refine .rests (by simp [Pile.after, Entries.raise, counts])
                (.protecting ?_ ?_ isHigh ?_) fun index hIndex => by cases hIndex
              · simp only [Pile.after]
                rw [List.take_append_of_le_length isLow]
                exact below
              · simp only [Pile.after, List.length_append]
                omega
              · have hBare : kept (pile.drop visit.entry.exceptions) = [] := own
                simp only [Pile.after]
                rw [List.drop_append_of_le_length isLow, kept_append, hBare]
                exact congrArg (fun raised => [raised]) hRaised.symm
  | @handles _ visit exception name region outer mark marks innermost marked own =>
      have hMarks := hNested.parkings_handle hFits marked
      obtain ⟨rest, rfl⟩ := List.head?_eq_some_iff.1 hFits
      refine h.relay (fun floor pile hPiled => ?_) rfl rfl
      rw [hMarks] at hPiled
      cases hPiled with
      | protecting below isLow isHigh own => exact .protecting below isLow isHigh own
  | raises isCaught =>
      obtain rfl := hRuns trivial
      exact h.raises rfl (by simp [Entries.raise]) rfl
  | forwards isCaught =>
      obtain rfl := hRuns trivial
      exact h.raises rfl (by simp) rfl
  | @shields _ mark =>
      cases h with
      | rests counts piled idle =>
          exact .rests counts (.bare piled idle) fun index hIndex => by cases hIndex
      | flies counts piled inFlight newest isOwn =>
          have hShelters : Piled (.guardBody mark :: ledger) _ _ _ pile :=
            .shelters piled newest isOwn
          rw [← inFlight] at hShelters
          exact .rests counts hShelters fun index hIndex => by cases hIndex
  | @unshields _ mark place marks marked =>
      obtain rfl := hRuns trivial
      obtain ⟨rest, rfl⟩ := List.head?_eq_some_iff.1 hFits
      cases h with
      | rests counts piled idle =>
          rw [marked, parkings?_guard] at piled
          cases piled with
          | bare below idle => exact .rests counts below idle
          | shelters below newest isOwn => exact .flies counts below rfl newest isOwn

end

/-- An entry at an index lies above every depth that is not above the index. -/
theorem mem_drop_of_getElem? {α : Type} {entries : List α} {entry : α}
    {depth index : Nat} (h : entries[index]? = some entry) (hLow : depth ≤ index) :
    entry ∈ entries.drop depth := by
  refine List.mem_of_getElem? (i := index - depth) ?_
  rw [List.getElem?_drop, Nat.add_sub_cancel' hLow]
  exact h

/-- Only a raise that is stopped leaves a record behind. From a depth on none is left
behind, as long as no region is left that found fewer records. -/
theorem Pile.whole_above {deed : Deed} {entries : Entries} {pile : Pile} {depth : Nat}
    (h : none ∉ pile.drop depth) (hStops : deed ≠ .stops)
    (hLeaves : ∀ visit unwinding fate, deed = .leaves visit unwinding fate →
      depth ≤ visit.entry.exceptions)
    (hAbandons : ∀ visit, deed = .abandons visit → depth ≤ visit.entry.exceptions) :
    none ∉ (pile.after entries deed).drop depth := by
  have concat (raised : Raised) : none ∉ (pile ++ [some raised]).drop depth := by
    intro hMem
    rw [List.drop_append, List.mem_append] at hMem
    rcases hMem with hOld | hNew
    · exact h hOld
    · cases List.mem_singleton.1 (List.mem_of_mem_drop hNew)
  have back {low : Nat} (inFlight : Option Nat) (keep : Bool) (hLow : depth ≤ low) :
      none ∉ (Unwinding.released inFlight low keep pile).drop depth := by
    intro hMem
    have hTaken : none ∉ (pile.take low).drop depth := by
      rw [List.drop_take]
      exact fun hTake => h (List.mem_of_mem_take hTake)
    unfold Unwinding.released at hMem
    cases inFlight with
    | none => exact hTaken hMem
    | some index =>
        dsimp only at hMem
        split at hMem
        · next hFlown =>
            rw [List.drop_append, List.mem_append] at hMem
            rcases hMem with hBelow | hKept
            · exact hTaken hBelow
            · exact h
                (mem_drop_of_getElem? (Option.mem_toList.1 (List.mem_of_mem_drop hKept))
                (by omega))
        · exact hTaken hMem
  cases deed with
  | opens => simp [Pile.after]
  | closes => simp [Pile.after]
  | raises kind message origin => exact concat _
  | reports visit exception => exact concat _
  | forwards exception => exact concat _
  | leaves visit unwinding fate => exact back _ _ (hLeaves visit unwinding fate rfl)
  | abandons visit => exact back _ _ (hAbandons visit rfl)
  | catches visit exception =>
      simp only [Pile.after]
      split
      · rw [List.drop_set]
        split
        · exact h
        · exact fun hMem => (List.mem_or_eq_of_mem_set hMem).elim h
            (fun hNone => by cases hNone)
      · exact h
  | stops => exact absurd rfl hStops
  | _ => exact h

/-- As long as no raise is stopped, no record is left behind. -/
theorem Pile.whole_after {deed : Deed} {entries : Entries} {pile : Pile}
    (h : none ∉ pile) (hStops : deed ≠ .stops) :
    none ∉ pile.after entries deed :=
  @Pile.whole_above _ _ _ 0 h hStops (fun _ _ _ _ => Nat.zero_le _)
    fun _ _ => Nat.zero_le _

/-! ## What is kept is what was raised -/

/-- What a pile remembers of the records is what was raised. -/
def Agrees (pile : Pile) (known : List Raised) : Prop :=
  List.Forall₂ (fun entry raised => ∀ found, entry = some found → found = raised)
    pile known

namespace Agrees

variable {pile : Pile} {known : List Raised} {index : Nat} {raised : Raised}

private theorem concat (h : Agrees pile known) (raised : Raised) :
    Agrees (pile ++ [some raised]) (known ++ [raised]) :=
  List.rel_append h (.cons (fun _ hFound => (Option.some.inj hFound).symm) .nil)

private theorem getElem? (h : Agrees pile known)
    (hIndex : pile[index]? = some (some raised)) : known[index]? = some raised := by
  induction h generalizing index with
  | nil => cases hIndex
  | cons hHead _ ih =>
      cases index with
      | zero =>
          rw [List.getElem?_cons_zero] at hIndex ⊢
          rw [hHead raised (Option.some.inj hIndex)]
      | succ index =>
          rw [List.getElem?_cons_succ] at hIndex ⊢
          exact ih hIndex

private theorem getLast? (h : Agrees pile known)
    (hTop : pile.getLast? = some (some raised)) : known.getLast? = some raised := by
  rw [List.getLast?_eq_getElem?] at hTop ⊢
  rw [← h.length_eq]
  exact h.getElem? hTop

/-- A record may be forgotten, or be remembered as what was raised. -/
theorem set (h : Agrees pile known) {entry : Option Raised}
    (hEntry : ∀ found, entry = some found → known[index]? = some found) :
    Agrees (pile.set index entry) known := by
  induction h generalizing index with
  | nil => exact .nil
  | cons hHead hTail ih =>
      cases index with
      | zero =>
          exact .cons (fun found hFound => (Option.some.inj (hEntry found hFound)).symm)
            hTail
      | succ index => exact .cons hHead (ih hEntry)

private theorem released (h : Agrees pile known) (inFlight : Option Nat) (depth : Nat)
    (keep : Bool) :
    Agrees (Unwinding.released inFlight depth keep pile)
      (Unwinding.released inFlight depth keep known) := by
  have hTake := List.forall₂_take depth h
  unfold Unwinding.released
  cases inFlight with
  | none => exact hTake
  | some index =>
      dsimp only
      split
      · refine List.rel_append hTake ?_
        cases hEntry : pile[index]? with
        | none =>
            have hNone : known[index]? = none := by
              rw [List.getElem?_eq_none_iff, ← h.length_eq]
              exact List.getElem?_eq_none_iff.1 hEntry
            rw [hNone]
            exact .nil
        | some entry =>
            obtain ⟨hLow, rfl⟩ := List.getElem?_eq_some_iff.1 hEntry
            have hHere : index < known.length := h.length_eq ▸ hLow
            rw [List.getElem?_eq_getElem hHere]
            exact .cons (List.forall₂_iff_get.1 h |>.2 index hLow hHere) .nil
      · exact hTake

/-- A deed keeps a pile true. -/
theorem after {deed : Deed} {entries after : Entries} {known : Lineage}
    (h : Agrees pile known.records) (hTurns : deed.Turns entries after)
    (hTells : entries.Tells known.records)
    (hHeld : ∀ exception, deed = .forwards exception →
      known.held = some exception.raised) :
    Agrees (pile.after entries deed) (known.recordsAfter entries deed) := by
  cases hTurns with
  | quiet isQuiet =>
      cases deed with
      | stops =>
          simp only [Pile.after]
          split
          · exact h.set fun found hFound => by cases hFound
          · exact h
      | rests => exact h
      | declines exception => exact h
      | recalls name => exact h
      | closesScope mark => exact h
      | _ => exact isQuiet.elim
  | leaves isFramed count => exact h.released _ _ _
  | abandons isFramed count => exact h.released _ _ _
  | catches innermost inFlight found =>
      simp only [Pile.after, inFlight]
      refine h.set fun raised hRaised => ?_
      cases hRaised
      exact Unwinding.Tells.getElem? hTells found
  | reports innermost => exact h.concat _
  | raises isCaught => exact h.concat _
  | @forwards _ exception isCaught =>
      simp only [Pile.after, Lineage.recordsAfter, hHeld exception rfl]
      exact h.concat _
  | _ => exact h

end Agrees

/-! ## Runs -/

/-- The pile of a thread, if it has a context; without one, it has no records. -/
inductive Burden (ledger : List Extent) : Option Entries → Bool → List Bool → Pile →
    Prop
  | heaped {entries : Entries} {flying : Bool} {shelters : List Bool} {pile : Pile}
      (h : Heaped ledger entries flying shelters pile) :
        Burden ledger (some entries) flying shelters pile
  | closed : Burden ledger none false [] []

/-- A run from a machine and a ledger, with the pile of each state, through steps that
are all allowed and none of which terminates the thread. -/
inductive Heaps {ν : Type} (allowed : Machine ν → List Extent → Prop)
    (start : Machine ν) (opened : List Extent) :
    Machine ν → List Extent → Pile → Prop
  | start : Heaps allowed start opened start opened []
  | step {m : Machine ν} {ledger : List Extent} {pile : Pile}
      (before : Heaps allowed start opened m ledger pile)
      (isAllowed : allowed m ledger) (goesOn : m.step.poisoned = false) :
      Heaps allowed start opened m.step (m.move.apply ledger)
        (pile.after (m.entries?.getD .empty) m.deed)

section

variable {ν : Type} {m : Machine ν} {ledger : List Extent} {pile : Pile}
    {known : Lineage}

private theorem Machine.closing_not_isRun (m : Machine ν) : ¬ m.closing.IsRun := by
  obtain hRests | hCloses := m.closing_eq
  · rw [hRests]
    exact id
  · rw [hCloses]
    exact id

/-- Nothing is on its way where a deed of code that runs is done. -/
theorem Machine.runs_of_isRun (h : m.deed.IsRun) : m.focus.course = .runs := by
  cases hFocus : m.focus with
  | next =>
      simp only [deed, hFocus] at h
      exact h.elim
  | drop handle =>
      simp only [deed, hFocus] at h
      cases handle with
      | thread => exact absurd h m.closing_not_isRun
      | region visit inUnwinding => dsimp only at h; split at h <;> exact h.elim
      | call entry inUnwinding => exact h.elim
      | guards scope => exact h.elim
  | leaveScope scope =>
      simp only [deed, hFocus] at h
      split at h
      · exact h.elim
      · split at h <;> exact h.elim
  | unwind payload =>
      simp only [deed, hFocus, answering] at h
      split at h
      · split at h
        · split at h
          · exact h.elim
          · split at h <;> exact h.elim
        · exact h.elim
      · exact h.elim
      · split at h <;> exact h.elim
      · exact absurd h m.closing_not_isRun
      · exact h.elim
  | stopped how =>
      simp only [deed, hFocus] at h
      exact h.elim
  | _ => rfl

private theorem Machine.closing_ne_stops (m : Machine ν) : m.closing ≠ .stops := by
  obtain hRests | hCloses := m.closing_eq
  · simp [hRests]
  · simp [hCloses]

/-- Only foreign code stops a raise. -/
theorem Machine.stopsRaise_of_deed (h : m.deed = .stops) : m.StopsRaise := by
  cases hFocus : m.focus with
  | unwind payload =>
      simp only [deed, hFocus, answering] at h
      split at h
      · split at h
        · split at h
          · cases h
          · split at h <;> cases h
        · cases h
      · cases h
      · next hControl =>
          split at h
          · exact ⟨hFocus, _, _, hControl⟩
          · cases h
      · exact absurd h m.closing_ne_stops
      · cases h
  | exec stmt =>
      have hMild := mild_deedOf hFocus
      rw [show m.deedOf stmt = .stops by simpa only [deed, hFocus] using h] at hMild
      exact hMild.elim
  | drop handle =>
      simp only [deed, hFocus] at h
      cases handle with
      | thread => exact absurd h m.closing_ne_stops
      | region visit inUnwinding => dsimp only at h; split at h <;> cases h
      | call entry inUnwinding => cases h
      | guards scope => cases h
  | leaveScope scope =>
      simp only [deed, hFocus] at h
      split at h
      · cases h
      · split at h <;> cases h
  | deliver value =>
      simp only [deed, hFocus, answering] at h
      split at h
      · split at h
        · cases h
        · split at h
          · split at h <;> cases h
          · cases h
      · cases h
      · exact absurd h m.closing_ne_stops
      · cases h
  | offer region exception =>
      simp only [deed, hFocus] at h
      split at h <;> cases h
  | write raising pieces =>
      simp only [deed, hFocus] at h
      split at h <;> cases h
  | _ =>
      simp only [deed, hFocus] at h
      cases h

/-- The state of a machine in a run that closes in turn, with what its pile holds. -/
structure Laden (m : Machine ν) (ledger : List Extent) (pile : Pile) (known : Lineage) :
    Prop where
  footing : Footing m ledger
  remembers : Remembers known m
  agrees : Agrees pile known.records
  burden : ∃ flying shelters, m.Flows flying shelters ∧
    Burden ledger m.entries? flying shelters pile

/-- No guard body runs where the thread is all that is open. -/
theorem Piled.of_thread {rest : List Extent} {parked : List (Nat × Option Nat)}
    {shelters : List Bool} {floor : Nat}
    (h : Piled (.thread :: rest) parked shelters floor pile) : shelters = [] := by
  cases h
  rfl

/-- What a step does to the records that are kept. -/
theorem Laden.burden_step (h : Laden m ledger pile known) (hTurn : m.InTurn ledger)
    (hGoesOn : m.step.poisoned = false) :
    ∃ flying shelters, m.step.Flows flying shelters ∧
      Burden (m.move.apply ledger) m.step.entries? flying shelters
        (pile.after (m.entries?.getD .empty) m.deed) := by
  obtain ⟨flying, shelters, hFlows, hBurden⟩ := h.burden
  have hStands := h.footing.stands
  have hDid := Machine.did_step hStands.clear hGoesOn
  refine ⟨_, _, Machine.flows_step hStands.clear hGoesOn hFlows, ?_⟩
  have hFits := hStands.fits hTurn
  have hActs := hDid.acts
  rw [hDid.move]
  generalize hBefore : m.entries? = before at hActs hBurden
  generalize m.step.entries? = after at hActs
  generalize hDeed : m.deed = deed at hActs hFits
  cases hActs with
  | @turns _ before after hTurns =>
      obtain ⟨context, hContext, rfl⟩ := Machine.exists_of_entries? hBefore
      cases hBurden with
      | heaped hHeaped =>
          refine .heaped (hHeaped.turns (hStands.nested context hContext) hTurns hFits
            (fun hRun => ?_) fun visit exception index hCatches hIndex => ?_)
          · exact hFlows.landed (Machine.runs_of_isRun (hDeed ▸ hRun))
          · exact h.footing.catches hGoesOn hContext (hDeed.trans hCatches) hIndex
  | quiet isQuiet =>
      cases hBurden
      cases deed <;> first | exact .closed | exact isQuiet.elim
  | opens =>
      obtain rfl := hStands.closed (Option.map_eq_none_iff.1 hBefore)
      cases hBurden
      have hThread : Piled [.thread] [] [] 0 [] := .thread rfl
      exact .heaped (.rests rfl hThread fun index hIndex => by cases hIndex)
  | closes =>
      obtain ⟨rest, rfl⟩ := List.head?_eq_some_iff.1 hFits
      have hShelters : shelters = [] := by
        cases hBurden with
        | closed => rfl
        | heaped hHeaped => cases hHeaped <;> exact Piled.of_thread ‹_›
      rw [hShelters]
      exact .closed

/-- One step in turn keeps the pile in accord with the records of the context. -/
theorem Laden.step (h : Laden m ledger pile known) (hTurn : m.InTurn ledger)
    (hGoesOn : m.step.poisoned = false) :
    Laden m.step (m.move.apply ledger) (pile.after (m.entries?.getD .empty) m.deed)
      (m.remember known) := by
  refine ⟨h.footing.step hTurn hGoesOn, h.remembers.step hGoesOn, ?_,
    h.burden_step hTurn hGoesOn⟩
  have hActs := (Machine.did_step h.footing.stands.clear hGoesOn).acts
  rw [Machine.remember]
  dsimp only
  generalize hBefore : m.entries? = before at hActs
  generalize m.step.entries? = after at hActs
  generalize hDeed : m.deed = deed at hActs
  cases hActs with
  | turns hTurns =>
      obtain ⟨context, hContext, rfl⟩ := Machine.exists_of_entries? hBefore
      refine h.agrees.after hTurns (h.remembers.records context hContext)
        fun exception hForwards => ?_
      exact h.remembers.spent (by rw [hDeed, hForwards]; rfl)
  | quiet isQuiet =>
      have hAgrees := h.agrees
      cases deed <;> first | exact hAgrees | exact isQuiet.elim
  | opens => exact .nil
  | closes => exact .nil

/-- A program starts with no record. -/
theorem laden_start (process : Process) (auto : Bool) (limits : Option Limits)
    (body : List (Stmt ν)) :
    Laden (Machine.start process auto limits body)
      (Machine.start process auto limits body).opened [] {} := by
  refine ⟨footing_start process auto limits body,
    remembers_start process auto limits body, .nil, false, [],
    Machine.flows_start process auto limits body, ?_⟩
  unfold Machine.opened Machine.entries?
  cases hContext : (Machine.start process auto limits body).context with
  | none => exact .closed
  | some context =>
      have hThread : Piled [.thread] [] [] 0 [] := .thread rfl
      refine .heaped ?_
      rw [(Machine.start_fresh process auto limits body).2.2 context hContext]
      exact .rests rfl hThread fun index hIndex => by cases hIndex

/-- Every state of a run that closes in turn has such a pile. -/
theorem Heaps.laden {allowed : Machine ν → List Extent → Prop} {start : Machine ν}
    {opened : List Extent} (h : Heaps allowed start opened m ledger pile)
    (hAllowed : ∀ m ledger, allowed m ledger → m.InTurn ledger)
    (hStart : Laden start opened [] known) :
    ∃ known, Laden m ledger pile known := by
  induction h with
  | start => exact ⟨known, hStart⟩
  | step before isAllowed goesOn ih =>
      obtain ⟨known, hLaden⟩ := ih
      exact ⟨_, hLaden.step (hAllowed _ _ isAllowed) goesOn⟩

/-- Nothing is left behind as long as no raise is stopped. -/
theorem Heaps.whole {allowed : Machine ν → List Extent → Prop} {start : Machine ν}
    {opened : List Extent} (h : Heaps allowed start opened m ledger pile)
    (hAllowed : ∀ m ledger, allowed m ledger → ¬ m.StopsRaise) : none ∉ pile := by
  induction h with
  | start => exact List.not_mem_nil
  | step before isAllowed goesOn ih =>
      exact whole_after ih fun hStops =>
        hAllowed _ _ isAllowed (Machine.stopsRaise_of_deed hStops)

end

/-! ## The current exception -/

section

variable {ν : Type} {m : Machine ν} {ledger : List Extent} {pile : Pile}
    {known : Lineage}

private theorem Context.current?_eq (context : Context) :
    context.current? = context.entries.records.getLast?.map
      fun record => record.against context.entries.frames := by
  have hTop : context.entries.records.getLast? = context.records.top? :=
    List.getLast?_reverse
  rw [hTop]
  unfold Context.current?
  simp only [Record.toException_eq_against]
  rfl

private theorem Machine.current?_eq {context : Context}
    (hContext : m.context = some context) (hFree : m.inUse = false) :
    m.current? = context.current? := by
  unfold Machine.current? Machine.ask
  rw [hContext, hFree]
  rfl

/-- A guard body holds up an exception: it parks a record that is kept. -/
def Context.HoldsUp (context : Context) (pile : Pile) (mark : Nat) : Prop :=
  ∃ index raised, (mark, some index) ∈ parkings? context.dispatch.live ∧
    pile[index]? = some (some raised)

/-- What the records on top of a handler are, outside further regions and guard bodies
that hold up an exception: there are none that are kept. -/
theorem Piled.kept_of_handler {parked : List (Nat × Option Nat)} {shelters : List Bool}
    {floor : Nat} {above outer : List Extent} {visit : Visit} {caught : Exception}
    (h : Piled (above ++ .protecting visit (.handler caught) :: outer) parked shelters
      floor pile)
    (hOutside : ∀ extent ∈ above, extent.protected? = none)
    (hFree : ∀ mark index raised, .guardBody mark ∈ above →
      (mark, some index) ∈ parked → pile[index]? ≠ some (some raised)) :
    ∃ before, kept pile = before ++ [caught.raised] := by
  induction above generalizing parked shelters floor pile with
  | nil =>
      cases h with
      | protecting below isLow isHigh own =>
          refine ⟨kept (pile.take visit.entry.exceptions), ?_⟩
          rw [kept_split pile visit.entry.exceptions, own]
          rfl
  | cons extent above ih =>
      have hInner : ∀ extent ∈ above, extent.protected? = none :=
        fun extent hMem => hOutside extent (List.mem_cons_of_mem _ hMem)
      rw [List.cons_append] at h
      generalize hRest : above ++ .protecting visit (.handler caught) :: outer =
        rest at h
      cases h with
      | thread bare => simp at hRest
      | call below =>
          subst hRest
          exact ih below hInner fun mark index raised hMem =>
            hFree mark index raised (List.mem_cons_of_mem _ hMem)
      | scope below =>
          subst hRest
          exact ih below hInner fun mark index raised hMem =>
            hFree mark index raised (List.mem_cons_of_mem _ hMem)
      | bare below idle =>
          subst hRest
          exact ih below hInner fun mark index raised hMem hParked =>
            hFree mark index raised (List.mem_cons_of_mem _ hMem)
              (List.mem_cons_of_mem _ hParked)
      | shelters below newest isOwn =>
          exact absurd newest.found (hFree _ _ _ List.mem_cons_self List.mem_cons_self)
      | @region _ _ _ _ _ visit below isLow isHigh bare =>
          subst hRest
          obtain ⟨before, hKept⟩ :=
            ih below hInner fun mark index raised hMem hParked hFound => by
            refine hFree mark index raised (List.mem_cons_of_mem _ hMem) hParked ?_
            rw [List.getElem?_take] at hFound
            split at hFound
            · exact hFound
            · cases hFound
          refine ⟨before, ?_⟩
          rw [kept_split pile visit.entry.exceptions, bare, List.append_nil]
          exact hKept
      | protecting below isLow isHigh own => cases hOutside _ List.mem_cons_self

/-- The newest record, if it is kept, is that of the current exception. -/
theorem Laden.current {context : Context} {raised : Raised}
    (h : Laden m ledger pile known) (hContext : m.context = some context)
    (hTop : pile.getLast? = some (some raised)) :
    context.current?.map Exception.raised = some raised := by
  have hKnown := h.agrees.getLast? hTop
  rw [← (h.remembers.records context hContext).means, List.getLast?_map] at hKnown
  rw [context.current?_eq, Option.map_map]
  exact hKnown

/-- All records above the one in flight were left behind. -/
theorem Laden.above_inFlight {context : Context} {index : Nat}
    (h : Laden m ledger pile known) (hContext : m.context = some context)
    (hIndex : context.inFlight = some index) :
    pile.length = context.entries.records.length ∧ index < pile.length ∧
      kept (pile.drop (index + 1)) = [] := by
  obtain ⟨flying, shelters, -, hBurden⟩ := h.burden
  rw [Machine.entries?_some hContext] at hBurden
  cases hBurden with
  | heaped hHeaped =>
      cases hHeaped with
      | rests counts piled idle =>
          exact ⟨counts, (idle index hIndex).lt_length, (idle index hIndex).above⟩
      | flies counts piled inFlight newest isOwn =>
          cases inFlight.symm.trans hIndex
          exact ⟨counts, newest.lt_length, newest.above⟩

/-- A guard body begins while the context is free. -/
theorem Machine.free_of_shields {mark : Nat} (hClear : m.poisoned = false)
    (hGoesOn : m.step.poisoned = false) (hDeed : m.deed = .shields mark) :
    m.step.inUse = false := by
  obtain ⟨_, _, hBegins⟩ := Machine.begins_of_shields hClear hGoesOn hDeed
  exact hBegins.leavesFree

/-- What a thread says when it is asked for its current exception. -/
structure Truthful (m : Machine ν) (ledger : List Extent) (pile : Pile) : Prop where
  /-- Code of a handler, outside further regions and guard bodies that hold up an
  exception, finds the exception that the handler was given, unless the newest record
  was left behind. -/
  handler : ∀ context visit caught above outer, m.context = some context →
    m.inUse = false → m.focus.course = .runs →
    ledger = above ++ .protecting visit (.handler caught) :: outer →
      (∀ extent ∈ above, extent.protected? = none) →
    (∀ mark, .guardBody mark ∈ above → ¬ context.HoldsUp pile mark) →
      pile.getLast? ≠ some none →
    m.current?.map Exception.raised = some caught.raised
  /-- A guard body that begins with a record in flight finds its exception, unless a
  record above it was left behind. -/
  guardBody : ∀ context mark index, m.context = some context → m.deed = .shields mark →
    m.step.poisoned = false →
    context.inFlight = some index → none ∉ pile.drop (index + 1) →
    ∃ exception, m.step.current? = some exception ∧
      (context.records.get? index).map
        (fun record => record.toException context.frames) = some exception ∧
      ∀ raised, pile[index]? = some (some raised) → exception.raised = raised

private theorem Laden.truthful (h : Laden m ledger pile known) :
    Truthful m ledger pile where
  handler := by
    intro context visit caught above outer hContext hFree hRuns hLedger hOutside hHolds
      hTop
    obtain ⟨flying, shelters, hFlows, hBurden⟩ := h.burden
    obtain rfl := hFlows.landed hRuns
    rw [Machine.entries?_some hContext, hLedger] at hBurden
    cases hBurden with
    | heaped hHeaped =>
        cases hHeaped with
        | rests counts piled idle =>
            obtain ⟨before, hKept⟩ :=
              piled.kept_of_handler hOutside fun mark index raised hMem hParked
              hFound =>
              hHolds mark hMem ⟨index, raised, hParked, hFound⟩
            rw [Machine.current?_eq hContext hFree]
            exact h.current hContext (getLast?_of_kept hKept hTop)
  guardBody := by
    intro context mark index hContext hDeed hGoesOn hIndex hWhole
    obtain ⟨hCounts, hLow, hKept⟩ := h.above_inFlight hContext hIndex
    have hStands := h.footing.stands
    obtain ⟨after, hAfter, hTurns⟩ := hStands.turns hContext (by simp [hDeed]) hGoesOn
    have hLast : index + 1 = context.entries.records.length := by
      have hNothing := List.drop_eq_nil_iff.1 (eq_nil_of_kept hKept hWhole)
      omega
    have hRecord :
        context.entries.records[index]? = context.entries.records.getLast? := by
      rw [List.getLast?_eq_getElem?, ← hLast]
      rfl
    have hSame : after.entries.records = context.entries.records ∧
        after.entries.frames = context.entries.frames := by
      rw [hDeed] at hTurns
      generalize after.entries = entries at hTurns
      cases hTurns with
      | quiet isQuiet => exact isQuiet.elim
      | shields => exact ⟨rfl, rfl⟩
    have hCurrent : m.step.current? = context.current? := by
      rw [Machine.current?_eq hAfter
        (Machine.free_of_shields hStands.clear hGoesOn hDeed), after.current?_eq,
        context.current?_eq, hSame.1, hSame.2]
    obtain ⟨record, hFound⟩ : ∃ record, context.entries.records[index]? = some record :=
      ⟨_, List.getElem?_eq_getElem (by omega)⟩
    refine ⟨record.against context.entries.frames, ?_, ?_, fun raised hRaised => ?_⟩
    · rw [hCurrent, context.current?_eq, ← hRecord, hFound]
      rfl
    · rw [← Stack.getElem?_toList]
      change (context.entries.records[index]?).map _ = _
      rw [hFound, Option.map_some, Record.toException_eq_against]
      rfl
    · have hKnown := h.agrees.getElem? hRaised
      rw [(h.remembers.records context hContext).getElem? hFound] at hKnown
      exact Option.some.inj hKnown

end

/-! ## The law -/

/-- In a run that closes in turn, code of a handler finds the exception that the handler
was given, and a guard body that begins while an exception is in flight finds that one,
unless a record that was left behind lies above. As long as no foreign code stops a
raise, nothing is left behind.

Records are left behind by raises that foreign code has stopped, until the region around
is left. A program without such code has none. -/
theorem truthful_of_heaps {ν : Type} {allowed : Machine ν → List Extent → Prop}
    {process : Process} {auto : Bool} {limits : Option Limits} {body : List (Stmt ν)}
    {m : Machine ν} {ledger : List Extent} {pile : Pile}
    (hAllowed : ∀ m ledger, allowed m ledger → m.InTurn ledger)
    (h : Heaps allowed (Machine.start process auto limits body)
      (Machine.start process auto limits body).opened m ledger pile) :
    Truthful m ledger pile ∧
      ((∀ m ledger, allowed m ledger → ¬ m.StopsRaise) → none ∉ pile) := by
  obtain ⟨known, hLaden⟩ := h.laden hAllowed (laden_start process auto limits body)
  exact ⟨hLaden.truthful, h.whole⟩

/-- The machine, the ledger and the pile after so many steps that are all allowed. -/
def pileUp {ν : Type} (allowed : Machine ν → List Extent → Prop)
    [∀ m ledger, Decidable (allowed m ledger)] :
    Nat → Machine ν → List Extent → Pile → Option (Machine ν × List Extent × Pile)
  | 0, m, ledger, pile => some (m, ledger, pile)
  | count + 1, m, ledger, pile =>
      if allowed m ledger ∧ m.step.poisoned = false then
        pileUp allowed count m.step (m.move.apply ledger)
          (pile.after (m.entries?.getD .empty) m.deed)
      else
        none

private theorem Heaps.pileUp {ν : Type} {allowed : Machine ν → List Extent → Prop}
    [∀ m ledger, Decidable (allowed m ledger)] {start m after : Machine ν}
    {opened ledger left : List Extent} {pile later : Pile}
    (h : Heaps allowed start opened m ledger pile) {count : Nat}
    (hPileUp : Unwinding.pileUp allowed count m ledger pile =
      some (after, left, later)) :
    Heaps allowed start opened after left later := by
  induction count generalizing m ledger pile with
  | zero =>
      cases hPileUp
      exact h
  | succ count ih =>
      unfold Unwinding.pileUp at hPileUp
      split at hPileUp
      · next hStep => exact ih (.step h hStep.1 hStep.2) hPileUp
      · cases hPileUp

/-- A run that is followed to a state that passes a test. -/
theorem Heaps.of_pileUp {ν : Type} {allowed : Machine ν → List Extent → Prop}
    [∀ m ledger, Decidable (allowed m ledger)] {start : Machine ν}
    {opened : List Extent} (count : Nat) (test : Machine ν → List Extent → Pile → Bool)
    (h : (Unwinding.pileUp allowed count start opened []).any
      (fun state => test state.1 state.2.1 state.2.2) = true) :
    ∃ m ledger pile, Heaps allowed start opened m ledger pile ∧ test m ledger pile =
      true := by
  cases hPileUp : Unwinding.pileUp allowed count start opened [] with
  | none =>
      rw [hPileUp] at h
      cases h
  | some state =>
      rw [hPileUp] at h
      exact ⟨state.1, state.2.1, state.2.2, Heaps.start.pileUp hPileUp, h⟩

/-- The exception that the innermost handler was given. -/
def handled? : List Extent → Option Exception
  | .protecting _ (.handler caught) :: _ => some caught
  | _ => none

/-- A guard body that holds up an exception runs code before it returns, and then the
handler asks for the current exception. -/
def asksAfter (undo : List (Stmt Nat)) : List (Stmt Nat) :=
  [.protect 1 ⟨"main", 1, "main"⟩ .run [.mk (.direct .illegalEscape) "e" [.current]]
    [.acquire "guard" (.guards ⟨"main", 2, "main"⟩) 1, .guard "guard" .always undo,
      .raise (.direct .illegalEscape) ⟨"main", 3, "main"⟩ []]]

/-- Code that stops a raise of its own. -/
def stopsOwn : Stmt Nat :=
  .attempt [.raise (.direct .illegalEscape) ⟨"main", 4, "undo"⟩ []] none

/-- The law speaks of a handler that runs after a raise was stopped in a region: the
region has given the record of that raise back, and the handler finds the exception that
it was given. -/
theorem truthful_of_givenBack :
    ∃ (m : Machine Nat) (ledger : List Extent) (pile : Pile) (visit : Visit)
      (caught exception : Exception) (outer : List Extent),
      Heaps Machine.InTurn
        (.start {} true none
        (asksAfter [.protect 1 ⟨"main", 5, "undo"⟩ .run [] [stopsOwn]]))
        (Machine.start {} true none
          (asksAfter [.protect 1 ⟨"main", 5, "undo"⟩ .run [] [stopsOwn]])).opened m
          ledger pile ∧
      ledger = .protecting visit (.handler caught) :: outer ∧ caught.origin =
        ⟨"main", 3, "main"⟩ ∧
      m.current? = some exception ∧ exception.raised = caught.raised := by
  obtain ⟨m, ledger, pile, hHeaps, hTest⟩ := Heaps.of_pileUp 38
    (fun (m : Machine Nat) ledger pile => m.context.isSome && !m.inUse &&
      decide (m.focus.course = .runs) && (match ledger with
        | .protecting _ (.handler caught) :: _ =>
            decide (caught.origin = ⟨"main", 3, "main"⟩)
        | _ => false) && decide (pile.getLast? ≠ some none))
    (show (pileUp Machine.InTurn 38
      (.start {} true none
      (asksAfter [.protect 1 ⟨"main", 5, "undo"⟩ .run [] [stopsOwn]]))
      (Machine.start {} true none
      (asksAfter [.protect 1 ⟨"main", 5, "undo"⟩ .run [] [stopsOwn]])).opened []).any
      _ = true by
        decide +kernel)
  obtain ⟨hTruthful, -⟩ := truthful_of_heaps (fun _ _ hTurn => hTurn) hHeaps
  simp only [Bool.and_eq_true, Bool.not_eq_true', decide_eq_true_eq] at hTest
  obtain ⟨⟨⟨⟨hSome, hFree⟩, hRuns⟩, hHandler⟩, hTop⟩ := hTest
  obtain ⟨context, hContext⟩ := Option.isSome_iff_exists.1 hSome
  split at hHandler
  · next visit caught outer =>
      have hCurrent :=
        hTruthful.handler context visit caught [] outer hContext hFree hRuns rfl
        (fun _ hMem => by cases hMem)
        (fun _ hMem => by cases hMem) hTop
      obtain ⟨exception, hFound, hRaised⟩ := Option.map_eq_some_iff.1 hCurrent
      exact ⟨m, _, pile, visit, caught, exception, outer, hHeaps, rfl,
        of_decide_eq_true hHandler, hFound, hRaised⟩
  · cases hHandler

/-- A record that was left behind is taken for the exception in hand: a handler asks for
the current exception, and finds one that a guard body raised and stopped.

The record is given back when the region around it is left, so what the handler finds
depends on code that has returned long before. -/
theorem leftover_misleads :
    ∃ (m : Machine Nat) (ledger : List Extent) (caught exception : Exception),
      Reaches Machine.InTurn (.start {} true none (asksAfter [stopsOwn]))
        (Machine.start {} true none (asksAfter [stopsOwn])).opened
        m ledger ∧ m.focus.course = .runs ∧ m.inUse = false ∧ handled? ledger =
          some caught ∧ m.current? = some exception ∧
      caught.origin = ⟨"main", 3, "main"⟩ ∧ exception.origin = ⟨"main", 4, "undo"⟩ := by
  obtain ⟨m, ledger, hReaches, hTest⟩ := Reaches.of_follow 31
    (fun (m : Machine Nat) ledger => decide (m.focus.course = .runs) && !m.inUse &&
      ((handled? ledger).any fun (caught : Exception) =>
        decide (caught.origin = ⟨"main", 3, "main"⟩)) &&
      m.current?.any fun (exception : Exception) =>
        decide (exception.origin = ⟨"main", 4, "undo"⟩))
    (show (follow Machine.InTurn 31 (.start {} true none (asksAfter [stopsOwn]))
      (Machine.start {} true none (asksAfter [stopsOwn])).opened).any _ = true by
        decide +kernel)
  simp only [Bool.and_eq_true, Bool.not_eq_true', decide_eq_true_eq, Option.any_eq_true]
    at hTest
  obtain ⟨⟨⟨hRuns, hFree⟩, caught, hCaught, hGiven⟩, exception, hCurrent, hStopped⟩ :=
    hTest
  exact ⟨m, ledger, caught, exception, hReaches, hRuns, hFree, hCaught, hCurrent,
    hGiven, hStopped⟩

end Unwinding
