import Unwinding.Proofs.Inquiries

/-!
# The invariant of a context

Whatever a program does, as long as it closes what it opened last first and nothing
foreign stops a raise, the context of its thread is in order between any two steps
(`WellFormed`): the marks on the stacks belong to what is open, numbers and depths grow
from the bottom to the top, and each record is the one in flight, or parked by a guard
body, or caught by a region, which finds it where its entry says.

## Main results

* `Onward.sound`, `sound_of_consults` — every situation of such a run is sound.
* `wellFormed_of_consults` — and so its context is well-formed.
-/

namespace Unwinding

variable {ν : Type}

/-! ## Runs -/

/-- The destructor of a value that a panic drops finds nothing in flight. -/
theorem Sound.destruct {base : Shape} {floor : Nat} {strict : Prop} {m : Machine ν}
    {ledger : List Extent} {flying : Bool} {parked : List Bool} {payload : Payload}
    (h : Sound base floor strict m ledger flying parked)
    (hUnwinds : m.focus = .unwind payload) (hPanic : payload ≠ .raise)
    (body : List (Stmt ν)) :
    Sound base floor strict (m.destruct payload body) ledger flying parked := by
  have hFlow := h.flow
  rw [hUnwinds] at hFlow
  exact ⟨h.clear, h.holds, trivial, (Flow.suspend hFlow hPanic).push.run⟩

/-- Code that a region calls while it tries its clauses finds nothing in flight. -/
theorem Sound.interject {base : Shape} {floor : Nat} {strict : Prop} {m : Machine ν}
    {ledger : List Extent} {flying : Bool} {parked : List Bool} {region : Protected ν}
    {exception : Exception} (h : Sound base floor strict m ledger flying parked)
    (hOffers : m.focus = .offer region exception) (code : List (Stmt ν)) :
    Sound base floor strict (m.interject code) ledger flying parked := by
  have hFlow := h.flow
  rw [hOffers] at hFlow
  exact ⟨h.clear, h.holds, trivial, hFlow.push.run⟩

/-- While code runs in it, the innermost region may go on with its clauses. -/
theorem Sound.offers {base : Shape} {floor : Nat} {strict : Prop} {m : Machine ν}
    {ledger : List Extent} {flying : Bool} {parked : List Bool} {region : Protected ν}
    {exception : Exception} (h : Sound base floor strict m ledger flying parked)
    (hRuns : m.focus.course = .runs)
    (hOpen : ledger.head? = some (.protecting region.visit (.clauses exception))) :
    Sound base floor strict (m.goto (.offer region exception)) ledger flying
      parked := by
  have hFlow := h.flow
  rw [hRuns] at hFlow
  exact ⟨h.clear, h.holds, List.head?_eq_some_iff.1 hOpen, hFlow⟩

/-- Steps that close in turn and do not stop a raise keep a machine sound. So do the
destructors of the values that a panic drops, and the code that a region calls while it
tries its clauses.

The ledger may be one that only accounts for what was opened since the run came to some
region; then it is followed up to where the region is left. -/
theorem Onward.sound {base : Shape} {floor : Nat} {strict : Prop}
    {allowed : Machine ν → List Extent → Prop} {drops : Payload → Prop}
    {before after : Situation ν} {deed : Deed} {inner outer : List Extent}
    (h : Onward allowed drops before deed after)
    (hLedger : before.ledger = inner ++ outer)
    (hOpen : inner ≠ [] ∨ outer = [])
    (hAllowed : ∀ m, allowed m (inner ++ outer) →
      m.Orderly inner ∧ (strict → ¬ m.LeavesStale) ∧ Untouched base floor inner)
    (hDrops : ∀ payload, drops payload → payload ≠ .raise)
    (hSound : ∃ flying parked,
      Sound base floor strict before.machine inner flying parked) :
    ∃ move : Move, after.ledger = move.apply inner ++ outer ∧
      ∃ flying parked,
        Sound base floor strict after.machine (move.apply inner) flying parked := by
  obtain ⟨flying, parked, hSound⟩ := hSound
  have hHead {extent : Extent} (hTop : before.ledger.head? = some extent) :
      inner.head? = some extent := by
    rw [hLedger] at hTop
    obtain hInner | rfl := hOpen
    · rwa [List.head?_append_of_ne_nil _ hInner] at hTop
    · rwa [List.append_nil] at hTop
  cases h with
  | @step m ledger inquiries isAllowed goesOn isInside =>
      obtain rfl : ledger = inner ++ outer := hLedger
      obtain ⟨⟨hTurn, hForeign⟩, hStale, hBase⟩ := hAllowed m isAllowed
      refine ⟨m.move, ?_, ?_⟩
      · obtain hInner | rfl := hOpen
        · exact m.move.apply_append outer hInner
        · simp only [List.append_nil]
      · obtain hLands | ⟨hPoisoned, -⟩ := lands_step hSound hBase hTurn hForeign hStale
        · exact hLands
        · cases goesOn.symm.trans hPoisoned
  | destructs unwinds isDropping body =>
      exact ⟨.stay, hLedger, _, _,
        hSound.destruct unwinds (hDrops _ isDropping) body⟩
  | passes offers isFirst isUnfit =>
      have hPoised := hSound.poised
      rw [offers] at hPoised
      exact ⟨.stay, hLedger, _, _,
        hSound.offers (by rw [offers]; rfl) (List.head?_eq_some_iff.2 hPoised)⟩
  | asks offers code => exact ⟨.stay, hLedger, _, _, hSound.interject offers code⟩
  | answers delivers ends =>
      exact ⟨.stay, hLedger, _, _,
        hSound.offers (by rw [delivers]; rfl) (hHead ends.isInTurn)⟩
  | @leaves m ledger inquiry inquiries payload unwinds ends goesOn =>
      obtain rfl : ledger = inner ++ outer := hLedger
      obtain ⟨rest, rfl⟩ := List.head?_eq_some_iff.1 (hHead ends.isInTurn)
      have hFlow := hSound.flow
      rw [unwinds] at hFlow
      refine ⟨.closes, rfl, ?_⟩
      obtain hLands | ⟨hPoisoned, -⟩ := hSound.passThrough rfl hSound.clear hFlow
      · exact hLands
      · cases goesOn.symm.trans hPoisoned

/-- Every situation of a run is sound, if the run starts so. -/
theorem sound_of_consults {base : Shape} {floor : Nat} {strict : Prop}
    {allowed : Machine ν → List Extent → Prop} {drops : Payload → Prop}
    {start now : Situation ν} (h : Consults allowed drops start now)
    (hAllowed : ∀ m ledger, allowed m ledger →
      m.Orderly ledger ∧ (strict → ¬ m.LeavesStale) ∧ Untouched base floor ledger)
    (hDrops : ∀ payload, drops payload → payload ≠ .raise)
    (hStart : ∃ flying parked,
      Sound base floor strict start.machine start.ledger flying parked) :
    ∃ flying parked, Sound base floor strict now.machine now.ledger flying parked := by
  induction h with
  | refl => exact hStart
  | tail before onward ih =>
      obtain ⟨deed, hOnward⟩ := onward
      obtain ⟨move, hLedger, hSound⟩ :=
        hOnward.sound (List.append_nil _).symm (.inr rfl)
          (fun m hStep => hAllowed m _ (by rwa [List.append_nil] at hStep)) hDrops ih
      rw [List.append_nil] at hLedger
      rw [hLedger]
      exact hSound

/-- A program starts in a sound machine, with nothing in flight and nothing parked. -/
theorem sound_start (strict : Prop) (process : Process) (auto : Bool)
    (limits : Option Limits) (body : List (Stmt ν)) :
    Sound {} 0 strict (Machine.start process auto limits body)
      (Machine.start process auto limits body).opened false [] := by
  let fresh : Machine ν :=
    { toProcess := process
      control := [.block "" body [] none, .thread auto]
      focus := .next }
  have hFresh : Flow strict fresh.bones .drops fresh.unwindings false [] :=
    ⟨Nat.le_refl _, fun h => (nomatch h), .nil, fun _ => Nat.le_refl _⟩
  have hFocus := focus_openThread fresh limits
  have hControl := Machine.control_openThread fresh limits
  have hUnwindings := unwindings_openThread fresh limits
  have hCases := context_openThread fresh limits
  cases auto with
  | false => exact ⟨rfl, ⟨rfl, rfl⟩, trivial, hFresh⟩
  | true =>
      unfold Machine.start
      simp only [if_true]
      generalize hOpen : Machine.openThread _ _ = opened
      change fresh.openThread limits = opened at hOpen
      cases opened with
      | mk outcome m =>
          rw [hOpen] at hFocus hControl hUnwindings hCases
          simp only at hFocus hControl hUnwindings hCases
          have hBones : m.bones = fresh.bones := congrArg (List.map _) hControl
          have hFlow : Flow strict m.bones m.focus.course m.unwindings false [] := by
            rw [hBones, hFocus, hUnwindings]
            exact hFresh
          have hPoised : Poised m.focus m.opened := by
            rw [hFocus]
            trivial
          obtain ⟨hRefused, hContext, hClear⟩
              | ⟨rfl, _, hClear, config, limits', hContext⟩ := hCases
          · have hNone : m.context = none := hContext
            have hOpened : m.opened = [] := by simp [Machine.opened, hNone]
            cases outcome with
            | opened => exact absurd rfl hRefused
            | refused error =>
                refine ⟨hClear, ?_, hPoised, hFlow⟩
                rw [hOpened, hNone]
                exact ⟨rfl, rfl⟩
            | overflowed =>
                have hUnwound :
                    ({ m with control := [] }.unwind Machine.overflow :
                    Machine ν).opened = [] := hOpened
                rw [hUnwound]
                refine ⟨hClear, ?_, trivial, ?_⟩
                · change Holds {} 0 m.context [] false []
                  rw [hNone]
                  exact ⟨rfl, rfl⟩
                · refine ⟨?_, fun h => (nomatch h), .nil, fun _ => Nat.le_refl _⟩
                  change 1 ≤ m.unwindings + 1
                  omega
          · have hOpened : m.opened = [.thread] := by simp [Machine.opened, hContext]
            refine ⟨hClear, ?_, hPoised, hFlow⟩
            rw [hOpened, hContext]
            exact keeps_new _ _

/-- Every situation of an orderly run of a thread is sound. -/
theorem sound_of_orderly {process : Process} {auto : Bool} {limits : Option Limits}
    {body : List (Stmt ν)} {now : Situation ν}
    (h : Consults Machine.Orderly (fun payload => payload ≠ .raise)
      (.start process auto limits body) now) :
    ∃ flying parked, Sound {} 0 False now.machine now.ledger flying parked :=
  sound_of_consults h (fun _ _ hOrderly => ⟨hOrderly, False.elim, .inl ⟨rfl, rfl⟩⟩)
    (fun _ hPanic => hPanic) ⟨_, _, sound_start _ _ _ _ _⟩

/-- Every situation of a strict run of a thread is sound, and nothing is missing. -/
theorem sound_of_strict {process : Process} {auto : Bool} {limits : Option Limits}
    {body : List (Stmt ν)} {now : Situation ν}
    (h : Consults Machine.Strict (fun payload => payload ≠ .raise)
      (.start process auto limits body) now) :
    ∃ flying parked, Sound {} 0 True now.machine now.ledger flying parked :=
  sound_of_consults h
    (fun _ _ hStrict => ⟨hStrict.1, fun _ => hStrict.2, .inl ⟨rfl, rfl⟩⟩)
    (fun _ hPanic => hPanic) ⟨_, _, sound_start _ _ _ _ _⟩

/-! ## What a ledger says about the stacks -/

/-- The mark that an extent has on the region stack. -/
def Extent.mark? : Extent → Option Region
  | .region visit => some ⟨visit, .entered⟩
  | .protecting visit phase => some ⟨visit, phase.state⟩
  | _ => none

namespace Region

/-- A protected region to which exceptions still come: its body runs, or its clauses are
tried. -/
def isCatching (region : Region) : Bool :=
  !region.visit.explicit && (region.state == .dispatching || region.state == .matching)

/-- A protected region that has caught an exception. -/
def hasCaught (region : Region) : Bool :=
  !region.visit.explicit && (region.state == .matching || region.state == .handling)

end Region

namespace Dispatch

/-- The region that a dispatch mark belongs to, if it belongs to one. -/
def region? : Dispatch → Option Nat
  | .region owner => some owner
  | .guard _ _ => none

/-- Whether a dispatch mark parks a record. -/
def parks : Dispatch → Bool
  | .region _ => false
  | .guard _ parked => parked.isSome

end Dispatch

namespace Built

variable {shape : Shape} {next : Nat} {ledger : List Extent}

private theorem regions_eq (h : Built {} 0 next ledger shape) :
    shape.regions = ledger.filterMap Extent.mark? := by
  induction h with
  | base isFree => rfl
  | thread isFree => rfl
  | call below hEntry ih => exact ih
  | region below isFree hEntry isExplicit ih => exact congrArg (_ :: ·) ih
  | scope below isFree ih => exact ih
  | guardBody below hAnchored ih => exact ih
  | protecting below isFree hEntry isProtected hCaught hAnchored ih =>
      exact congrArg (_ :: ·) ih

private theorem id_lt (h : Built {} 0 next ledger shape) :
    ∀ region ∈ shape.regions, region.visit.id < next := by
  induction h with
  | base isFree => simp
  | thread isFree => simp
  | call below hEntry ih => exact ih
  | region below isFree hEntry isExplicit ih =>
      intro region hMem
      rcases List.mem_cons.1 hMem with rfl | hUnder
      · exact isFree
      · exact Nat.lt_trans (ih region hUnder) isFree
  | scope below isFree ih =>
      exact fun region hMem => Nat.lt_trans (ih region hMem) isFree
  | guardBody below hAnchored ih => exact ih
  | protecting below isFree hEntry isProtected hCaught hAnchored ih =>
      intro region hMem
      rcases List.mem_cons.1 hMem with rfl | hUnder
      · exact isFree
      · exact Nat.lt_trans (ih region hUnder) isFree

private theorem ids_pairwise (h : Built {} 0 next ledger shape) :
    shape.regions.Pairwise fun inner outer => outer.visit.id < inner.visit.id := by
  induction h with
  | base isFree => exact .nil
  | thread isFree => exact .nil
  | call below hEntry ih => exact ih
  | region below isFree hEntry isExplicit ih => exact .cons below.id_lt ih
  | scope below isFree ih => exact ih
  | guardBody below hAnchored ih => exact ih
  | protecting below isFree hEntry isProtected hCaught hAnchored ih =>
      exact .cons below.id_lt ih

private theorem owners_eq (h : Built {} 0 next ledger shape) :
    shape.dispatch.filterMap Dispatch.region? =
      (shape.regions.filter Region.isCatching).map fun region => region.visit.id := by
  induction h with
  | base isFree => rfl
  | thread isFree => rfl
  | call below hEntry ih => exact ih
  | region below isFree hEntry isExplicit ih =>
      simpa [Region.isCatching, isExplicit] using ih
  | scope below isFree ih => exact ih
  | guardBody below hAnchored ih => exact ih
  | @protecting _ _ _ _ _ phase _ below isFree hEntry isProtected hCaught hAnchored
      ih =>
      cases phase <;>
        simpa [Region.isCatching, isProtected, Phase.state, Phase.marks,
        Dispatch.region?] using ih

/-- A region remembers how many marks were below its own. -/
theorem index_eq (h : Built {} 0 next ledger shape) {inner outer : List Region}
    {region : Region} (hSplit : shape.regions = inner ++ region :: outer) :
    region.visit.entry.regions = outer.length := by
  induction h generalizing inner with
  | base isFree => simp at hSplit
  | thread isFree => simp at hSplit
  | call below hEntry ih => exact ih hSplit
  | region below isFree hEntry isExplicit ih =>
      cases inner with
      | nil =>
          obtain ⟨rfl, rfl⟩ := List.cons.inj hSplit
          rw [hEntry]
          rfl
      | cons first inner => exact ih (List.cons.inj hSplit).2
  | scope below isFree ih => exact ih hSplit
  | guardBody below hAnchored ih => exact ih hSplit
  | protecting below isFree hEntry isProtected hCaught hAnchored ih =>
      cases inner with
      | nil =>
          obtain ⟨rfl, rfl⟩ := List.cons.inj hSplit
          rw [hEntry]
          rfl
      | cons first inner => exact ih (List.cons.inj hSplit).2

/-- An entry lies below everything that came later. -/
theorem entry_le (h : Built {} 0 next ledger shape) :
    ∀ region ∈ shape.regions, ∀ kind,
      region.visit.entry.get kind ≤ shape.depths.get kind := by
  induction h with
  | base isFree => simp
  | thread isFree => simp
  | call below hEntry ih =>
      intro region hMem kind
      refine Nat.le_trans (ih region hMem kind) ?_
      cases kind <;> simp [Shape.depths, Depths.get]
  | @region _ _ under _ _ below isFree hEntry isExplicit ih =>
      intro region hMem kind
      have hUnder : region.visit.entry.get kind ≤ under.depths.get kind := by
        rcases List.mem_cons.1 hMem with rfl | hUnder
        · exact Nat.le_of_eq (congrArg (Depths.get · kind) hEntry)
        · exact ih region hUnder kind
      refine Nat.le_trans hUnder ?_
      cases kind <;> simp [Shape.depths, Depths.get]
  | scope below isFree ih =>
      intro region hMem kind
      refine Nat.le_trans (ih region hMem kind) ?_
      cases kind <;> simp [Shape.depths, Depths.get]
  | guardBody below hAnchored ih =>
      intro region hMem kind
      refine Nat.le_trans (ih region hMem kind) ?_
      cases kind <;> simp [Shape.depths, Depths.get]
  | @protecting _ _ under _ _ _ _ below isFree hEntry isProtected hCaught hAnchored
      ih =>
      intro region hMem kind
      have hUnder : region.visit.entry.get kind ≤ under.depths.get kind := by
        rcases List.mem_cons.1 hMem with rfl | hUnder
        · exact Nat.le_of_eq (congrArg (Depths.get · kind) hEntry)
        · exact ih region hUnder kind
      refine Nat.le_trans hUnder ?_
      cases kind <;> simp [Shape.depths, Depths.get]

private theorem entries_pairwise (h : Built {} 0 next ledger shape) :
    shape.regions.Pairwise fun inner outer => ∀ kind,
      outer.visit.entry.get kind ≤ inner.visit.entry.get kind := by
  induction h with
  | base isFree => exact .nil
  | thread isFree => exact .nil
  | call below hEntry ih => exact ih
  | region below isFree hEntry isExplicit ih =>
      exact .cons (fun outer hMem kind => hEntry ▸ below.entry_le outer hMem kind) ih
  | scope below isFree ih => exact ih
  | guardBody below hAnchored ih => exact ih
  | protecting below isFree hEntry isProtected hCaught hAnchored ih =>
      exact .cons (fun outer hMem kind => hEntry ▸ below.entry_le outer hMem kind) ih

private theorem parked_lt (h : Built {} 0 next ledger shape) {owner index : Nat}
    (hMem : .guard owner (some index) ∈ shape.dispatch) :
    index < shape.records.length := by
  induction h with
  | base isFree => simp at hMem
  | thread isFree => simp at hMem
  | call below hEntry ih => exact ih hMem
  | region below isFree hEntry isExplicit ih => exact ih hMem
  | scope below isFree ih => exact ih hMem
  | @guardBody _ _ _ under parked below hAnchored ih =>
      rw [List.length_append]
      rcases List.mem_cons.1 hMem with hOwn | hUnder
      · cases parked with
        | none => simp at hOwn
        | some record =>
            simp only [Option.map_some, Dispatch.guard.injEq, Option.some.injEq] at hOwn
            simp [hOwn.2]
      · exact Nat.lt_of_lt_of_le (ih hUnder) (Nat.le_add_left _ _)
  | @protecting _ _ under _ _ phase _ below isFree hEntry isProtected hCaught hAnchored
      ih =>
      rw [List.length_append]
      have hUnder : .guard owner (some index) ∈ under.dispatch := by
        rcases List.mem_append.1 hMem with hOwn | hUnder
        · cases phase <;> simp [Phase.marks] at hOwn
        · exact hUnder
      exact Nat.lt_of_lt_of_le (ih hUnder) (Nat.le_add_left _ _)

private theorem count_records (h : Built {} 0 next ledger shape) :
    shape.records.length = shape.regions.countP Region.hasCaught +
      shape.dispatch.countP Dispatch.parks := by
  induction h with
  | base isFree => rfl
  | thread isFree => rfl
  | call below hEntry ih => exact ih
  | region below isFree hEntry isExplicit ih =>
      simpa [Region.hasCaught, isExplicit] using ih
  | scope below isFree ih => exact ih
  | @guardBody _ mark _ under parked below hAnchored ih =>
      cases parked with
      | none => simpa [Dispatch.parks] using ih
      | some record =>
          have hParks :
            List.countP Dispatch.parks
              (.guard mark (some under.records.length) :: under.dispatch) =
              under.dispatch.countP Dispatch.parks + 1 := List.countP_cons_of_pos rfl
          simp only [Option.toList_some, List.cons_append, List.nil_append,
            List.length_cons, Option.map_some, hParks]
          omega
  | protecting below isFree hEntry isProtected hCaught hAnchored ih =>
      cases hCaught with
      | body =>
          simpa [Region.hasCaught, Phase.state, Phase.marks, Dispatch.parks,
            isProtected] using ih
      | clauses tells =>
          simp [Region.hasCaught, Phase.state, Phase.marks, Dispatch.parks, isProtected,
            ih]
          omega
      | handler tells =>
          simp [Region.hasCaught, Phase.state, Phase.marks, isProtected, ih]
          omega

/-- The record of what a region has caught lies where the records ended when it was
entered. -/
theorem caught_split (h : Built {} 0 next ledger shape) {visit : Visit} {phase : Phase}
    {caught : Exception} (hMem : .protecting visit phase ∈ ledger)
    (hPhase : phase.caught? = some caught) :
    ∃ above record below, shape.records = above ++ record :: below ∧
      below.length = visit.entry.exceptions ∧
      record.TellsOf caught := by
  induction h with
  | base isFree => cases hMem
  | thread isFree => simp at hMem
  | call below hEntry ih => exact ih (by simpa using hMem)
  | region below isFree hEntry isExplicit ih => exact ih (by simpa using hMem)
  | scope below isFree ih => exact ih (by simpa using hMem)
  | @guardBody _ _ _ _ parked below hAnchored ih =>
      obtain ⟨above, record, under, hRecords, hRest⟩ := ih (by simpa using hMem)
      refine ⟨parked.toList ++ above, record, under, ?_, hRest⟩
      rw [List.append_assoc, ← hRecords]
  | @protecting _ _ shape _ _ _ own below isFree hEntry isProtected hCaught hAnchored
      ih =>
      rcases List.mem_cons.1 hMem with hSame | hUnder
      · cases hSame
        cases hCaught with
        | body => cases hPhase
        | clauses tells =>
            cases hPhase
            exact ⟨[], _, shape.records, rfl, by rw [hEntry]; rfl, tells⟩
        | handler tells =>
            cases hPhase
            exact ⟨[], _, shape.records, rfl, by rw [hEntry]; rfl, tells⟩
      · obtain ⟨above, record, under, hRecords, hRest⟩ := ih hUnder
        refine ⟨own.toList ++ above, record, under, ?_, hRest⟩
        rw [List.append_assoc, ← hRecords]

end Built

namespace Stack

variable {α : Type} {stack : Stack α}

/-- The entry at an index has so many entries below it. -/
theorem split_of_get? {index : Nat} {entry : α} (h : stack.get? index = some entry) :
    ∃ above below, stack.live = above ++ entry :: below ∧ below.length = index := by
  unfold get? at h
  split at h
  · next hLt =>
      have hDepth := stack.depth_eq
      obtain ⟨hBound, hEntry⟩ := List.getElem?_eq_some_iff.1 h
      refine ⟨stack.live.take (stack.depth - 1 - index),
        stack.live.drop (stack.depth - 1 - index + 1), ?_, ?_⟩
      · rw [← hEntry, List.getElem_cons_drop, List.take_append_drop]
      · rw [List.length_drop]
        omega
  · cases h

private theorem get?_of_split {above below : List α} {entry : α}
    (h : stack.live = above ++ entry :: below) :
    stack.get? below.length = some entry := by
  have hDepth := stack.depth_eq
  rw [h, List.length_append, List.length_cons] at hDepth
  have hAbove : stack.depth - 1 - below.length = above.length := by omega
  rw [get?, if_pos (by omega), h, hAbove]
  simp

end Stack

/-! ## Contexts in order -/

/-- A context is in order for a ledger.

The clauses are about pairs of stacks that the runtime keeps apart. None of them is
checked while a program runs. -/
structure WellFormed (context : Context) (ledger : List Extent) : Prop where
  /-- The marks on the region stack are those of the regions that are open. -/
  marks : context.regions.live = ledger.filterMap Extent.mark?
  /-- Numbers of regions increase from the bottom to the top. -/
  ids : context.regions.live.Pairwise fun inner outer => outer.visit.id < inner.visit.id
  fresh : ∀ region ∈ context.regions.live, region.visit.id < context.nextId
  /-- The dispatch marks of regions are those of the regions to which exceptions still
  come, in the same order. -/
  owners : context.dispatch.live.filterMap Dispatch.region? =
    (context.regions.live.filter Region.isCatching).map fun region => region.visit.id
  indices : ∀ index region, context.regions.get? index = some region →
    region.visit.entry.regions = index
  entries : context.regions.live.Pairwise fun inner outer => ∀ kind,
    outer.visit.entry.get kind ≤ inner.visit.entry.get kind
  inFlight : ∀ index, context.inFlight = some index → index < context.records.depth
  parked : ∀ owner index, .guard owner (some index) ∈ context.dispatch.live →
    index < context.records.depth
  /-- Each record is one that a region has caught, or the one in flight, or one that a
  guard body parks. -/
  count : context.records.depth = context.regions.live.countP Region.hasCaught +
    (if context.inFlight.isSome then 1 else 0) +
      context.dispatch.live.countP Dispatch.parks
  /-- A region finds the record of the exception that it has caught where its entry
  says. -/
  caught : ∀ visit phase exception, .protecting visit phase ∈ ledger →
    phase.caught? = some exception →
    ∃ record, context.records.get? visit.entry.exceptions = some record ∧
      record.TellsOf exception
  /-- No record needs frames that are gone. -/
  traces : ∀ record ∈ context.records.live, record.reachesAbove context.frames.depth =
    false

private theorem Keeps.wellFormed {context : Context} {ledger : List Extent}
    {flying : Bool} {parked : List Bool} {books : Books}
    (h : Keeps {} 0 context ledger flying parked books) :
    WellFormed context ledger := by
  obtain ⟨represents, built, grounded, anchored, -, -⟩ := h
  have hRecords := represents.records
  have hDepth : context.records.depth = books.flight.toList.length +
      books.shape.records.length := by
    rw [context.records.depth_eq, hRecords, List.length_append]
  refine
    { marks := represents.regions.trans built.regions_eq
      ids := by rw [represents.regions]; exact built.ids_pairwise
      fresh := by rw [represents.regions, represents.nextId]; exact built.id_lt
      owners := by rw [represents.dispatch, represents.regions]; exact built.owners_eq
      indices := ?_
      entries := by rw [represents.regions]; exact built.entries_pairwise
      inFlight := ?_
      parked := ?_
      count := ?_
      caught := ?_
      traces := ?_ }
  · intro index region hGet
    obtain ⟨inner, outer, hSplit, rfl⟩ := Stack.split_of_get? hGet
    exact built.index_eq (represents.regions.symm.trans hSplit)
  · intro index hIndex
    rw [represents.inFlight] at hIndex
    obtain ⟨record, hFlight, rfl⟩ := Option.map_eq_some_iff.1 hIndex
    rw [hDepth, hFlight]
    simp
  · intro owner index hMem
    rw [represents.dispatch] at hMem
    have := built.parked_lt hMem
    omega
  · rw [hDepth, represents.regions, represents.dispatch, represents.inFlight,
      built.count_records]
    cases books.flight with
    | none => simp
    | some record =>
        simp
        omega
  · intro visit phase exception hMem hPhase
    obtain ⟨above, record, below, hSplit, hBelow, hTells⟩ :=
      built.caught_split hMem hPhase
    refine ⟨record, ?_, hTells⟩
    rw [← hBelow]
    have hLive : context.records.live = (books.flight.toList ++ above) ++ record ::
        below := by
      rw [hRecords, hSplit, List.append_assoc]
    exact Stack.get?_of_split hLive
  · intro record hMem
    rw [hRecords] at hMem
    rw [represents.frames_depth]
    rcases List.mem_append.1 hMem with hFlight | hRest
    · exact anchored record (by simpa using hFlight)
    · exact built.anchored grounded record hRest

/-- The context of a thread is well-formed between any two steps of a run that closes
what it opened last first and in which nothing foreign stops a raise, up to the first
termination. Destructors may run anything while a panic unwinds; while a raise unwinds,
only guard bodies may. Code that a region calls while it tries its clauses may do
anything.

The step that opens the context and every step after it are covered; between two steps
of a program nothing can be observed. The proof reads each clause off the shape that the
ledger builds up, so the clauses hold together and not one by one. -/
theorem wellFormed_of_consults {process : Process} {auto : Bool}
    {limits : Option Limits} {body : List (Stmt ν)} {now : Situation ν}
    {context : Context}
    (h : Consults Machine.Orderly (fun payload => payload ≠ .raise)
      (.start process auto limits body) now)
    (hContext : now.machine.context = some context) :
    WellFormed context now.ledger := by
  obtain ⟨flying, parked, hSound⟩ := sound_of_orderly h
  obtain ⟨books, hKeeps⟩ := hSound.keeps hContext
  exact hKeeps.wellFormed

/-- A region catches an exception that is raised in a traced call, and its handler sets
a value. -/
def catching : List (Stmt Nat) :=
  [.protect 1 ⟨"main", 1, "main"⟩ .run [.mk (.direct .illegalEscape) "e" [.value 1]]
    [.acquire "call" (.call ⟨"main", 2, "read"⟩) 1,
      .raise (.direct .illegalEscape) ⟨"main", 3, "read"⟩ []]]

/-- A region is left by a panic. -/
def panicking : List (Stmt Nat) :=
  [.protect 1 ⟨"main", 1, "main"⟩ .run [] [.panic none]]

/-- A region catches what its body raises. -/
def caughtAtOnce : List (Stmt Nat) :=
  [.protect 1 ⟨"main", 1, "main"⟩ .run [.mk (.direct .illegalEscape) "e" [.value 1]]
    [.raise (.direct .illegalEscape) ⟨"main", 2, "main"⟩ []]]

/-- The law speaks of the context in which a handler runs, in the destructor of a value
that a panic drops. -/
theorem wellFormed_while_handling :
    ∃ (now : Situation Nat) (context : Context),
      Consults Machine.Orderly (fun payload => payload ≠ .raise)
        (.start {} true none panicking) now ∧
      now.machine.context = some context ∧
      (∃ visit caught,
        now.ledger.head? = some (.protecting visit (.handler caught))) ∧
      WellFormed context now.ledger := by
  obtain ⟨m, ledger, hUnfolds, hTest⟩ :=
    Unfolds.of_follow (fun payload => payload ≠ .raise)
    (.panic none) (by decide) 4 9 caughtAtOnce
    (fun m ledger => m.context.isSome &&
      handles ⟨2, ⟨"main", 1, "main"⟩, ⟨1, 1, 0, 1, 0⟩, false⟩ ledger)
    (show (follow Machine.Orderly 4 (.start {} true none panicking)
      (Machine.start {} true none panicking).opened).any _ = true by decide +kernel)
  rw [Bool.and_eq_true, Option.isSome_iff_exists, handles_iff] at hTest
  obtain ⟨⟨context, hContext⟩, hHandles⟩ := hTest
  exact ⟨_, context, hUnfolds.consults, hContext, ⟨_, hHandles⟩,
    wellFormed_of_consults hUnfolds.consults hContext⟩

/-- The destructor of a value that a raise drops enters a region, raises in it and
catches. Only one record is in flight at a time, and nothing puts the other one back: it
is left lying on the stack when the raise goes on.

Afterwards one record lies on the stack that no region has caught, that is not in flight
and that no guard body parks, so the count of the records does not come out. -/
theorem destructor_unbalances :
    ∃ (now : Situation Nat) (context : Context),
      Consults Machine.Orderly (fun _ => True) (.start {} true none caughtAtOnce) now ∧
      now.machine.focus = .unwind .raise ∧ now.machine.context = some context ∧
        ¬ WellFormed context now.ledger := by
  let loses (context : Context) : Bool :=
    context.records.depth != context.regions.live.countP Region.hasCaught +
      (if context.inFlight.isSome then 1 else 0) +
        context.dispatch.live.countP Dispatch.parks
  obtain ⟨m, ledger, hUnfolds, hTest⟩ :=
    Unfolds.of_follow (fun _ => True) .raise trivial 5 18
    caughtAtOnce
    (fun m _ => m.unwinds .raise && m.context.any loses)
    (show (follow Machine.Orderly 5 (.start {} true none caughtAtOnce)
      (Machine.start {} true none caughtAtOnce).opened).any _ = true by decide +kernel)
  rw [Bool.and_eq_true] at hTest
  obtain ⟨context, hContext, hCount⟩ := (Option.any_eq_true _ _).1 hTest.2
  exact ⟨_, context, hUnfolds.consults, Machine.focus_of_unwinds hTest.1, hContext,
    fun hFormed => bne_iff_ne.1 hCount hFormed.count⟩

end Unwinding
