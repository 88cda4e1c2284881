import Unwinding.Proofs.Drafts
import Unwinding.Proofs.Leaving
import Unwinding.Proofs.Newest

/-!
# Panics that pass a region

A panic that is no raise goes through a protected region: nothing is caught, and the
region is left as it would be for a raise that is meant for a region further out. The
region cannot tell the two apart. It looks at the record in flight, keeps it if it was
raised inside, and takes it into account when it checks that the stacks are back where
they were.

All along a region the record in flight and those that guard bodies park are told apart
by where they come from (`Native`): they are what the region found, or they lie above
it. With what is known of runs that close in turn, of the heights of the stacks and of
records that are left behind, this says what the panic leaves.

## Main results

* `Housed.turns`, `Visiting.reaches` — what a deed, and what a run does to the record in
  flight inside a region.
* `panic_passes` — a panic passes every region unchanged, and the stacks are back where
  they were, unless a raise was stopped in the region.
* `leftover_passes` — the record of a stopped raise is left behind by a panic.
-/

namespace Unwinding

open Context

/-! ## Guard bodies -/

/-- Each guard body that runs parks the record that was in flight when it began, if
there was one. -/
theorem Layered.length_parkings {next floor : Nat} {ledger : List Extent}
    {regions : List Nat} {dispatch : List Dispatch}
    (h : Layered .thread next ledger regions dispatch floor) :
    (parkings? dispatch).length = ledger.countP Extent.isGuardBody := by
  induction h with
  | ground isFree => rfl
  | call below ih => exact ih
  | scope below isOld ih => exact ih
  | guardBody below isOld ih =>
      exact (congrArg (· + 1) ih).trans (List.countP_cons_of_pos rfl).symm
  | region below isOld isExplicit hRegions hDispatch hFloor ih => exact ih
  | protecting below isOld isProtected hFloor ih =>
      rw [parkings?_marks]
      exact ih

/-- Each guard body on the ledger has a place for what it parks. -/
theorem Nested.length_parked {ledger : List Extent} {entries : Entries}
    (h : Nested .thread ledger entries) :
    entries.parked.length = ledger.countP Extent.isGuardBody := by
  obtain ⟨floor, hLayered, -⟩ := h
  rw [Entries.parked, List.length_map]
  exact hLayered.length_parkings

/-! ## The record in flight inside a region -/

/-- A record that is in flight in a region, or parked there, is the one that the region
found in flight, or it lies above all that the region found. -/
def Native (visit : Visit) (found : Option Nat) (place : Option Nat) : Prop :=
  ∀ index, place = some index → found = some index ∨ visit.entry.exceptions ≤ index

private theorem native_none (visit : Visit) (found : Option Nat) :
    Native visit found none :=
  fun _ hNone => by cases hNone

/-- The record in flight in a region and those that guard bodies in it park. -/
def Housed (visit : Visit) (found : Entries) (entries : Entries) : Prop :=
  ∃ inside, entries.parked = inside ++ found.parked ∧
    Native visit found.inFlight entries.inFlight ∧
    ∀ place ∈ inside, Native visit found.inFlight place

/-- A deed in a region keeps what is in flight there. What a region that is left gives
back lies above what the region around it found, and a guard body that returns runs in
the region, so that what it had parked is not what was parked outside. -/
theorem Housed.turns {visit : Visit} {found before after : Entries} {deed : Deed}
    {above outer : List Extent} {phase : Phase} (h : Housed visit found before)
    (hNested : Nested .thread (above ++ .protecting visit phase :: outer) before)
    (hTurns : deed.Turns before after)
    (hFits : deed.Fits (above ++ .protecting visit phase :: outer))
    (hFound : found.parked.length = outer.countP Extent.isGuardBody) :
    Housed visit found after := by
  obtain ⟨inside, hInside, hFlight, hParked⟩ := h
  have hOpen :
      visit ∈ (above ++ .protecting visit phase :: outer).filterMap Extent.protected? :=
    List.mem_filterMap.2 ⟨.protecting visit phase, by simp, rfl⟩
  have hTop := hNested.entry_le visit hOpen
  obtain ⟨hAfter, hPlace⟩ := hTurns.lays hNested hFits
  have hFlown :
    Native visit found.inFlight
      (deed.lays before.records.length before.inFlight before.parked).1 →
      Native visit found.inFlight after.inFlight := by
    intro hLaid
    obtain hSame | hMoved := hPlace
    · rw [hSame]
      exact hLaid
    · intro index hIndex
      obtain ⟨left, unwinding, fate, hLeaves, rfl⟩ := hMoved index hIndex
      rw [hLeaves] at hFits
      exact .inr (hNested.entry_le_left hFits visit hOpen)
  have newest : Native visit found.inFlight (some before.records.length) := by
    intro index hIndex
    cases hIndex
    exact .inr hTop
  cases deed with
  | raises kind message origin =>
      exact ⟨inside, hAfter.trans hInside, hFlown newest, hParked⟩
  | forwards exception => exact ⟨inside, hAfter.trans hInside, hFlown newest, hParked⟩
  | shields mark =>
      exact ⟨before.inFlight :: inside, hAfter.trans (congrArg _ hInside),
        hFlown (native_none _ _), List.forall_mem_cons.2 ⟨hFlight, hParked⟩⟩
  | unshields mark =>
      have hCount := hNested.length_parked
      rw [hInside, List.length_append, hFound] at hCount
      cases above with
      | nil => cases hFits
      | cons top rest =>
          cases hFits
          rw [List.cons_append, List.countP_cons_of_pos rfl, List.countP_append,
            List.countP_cons_of_neg (by simp [Extent.isGuardBody])] at hCount
          cases inside with
          | nil =>
              rw [List.length_nil] at hCount
              omega
          | cons place inside =>
              obtain ⟨hOwn, hRest⟩ := List.forall_mem_cons.1 hParked
              have hTail : before.parked.tail = inside ++ found.parked :=
                congrArg List.tail hInside
              have hHead : before.parked.headD none = place :=
                congrArg (·.headD none) hInside
              exact ⟨inside, hAfter.trans hTail,
                hFlown (by rw [Deed.lays, hHead]; exact hOwn), hRest⟩
  | _ => exact ⟨inside, hAfter.trans hInside, hFlown hFlight, hParked⟩

/-! ## All along a region -/

section

variable {ν : Type} {m : Machine ν} {ledger outer : List Extent} {pile : Pile}
    {visit : Visit} {found : Entries}
  {allowed : Machine ν → List Extent → Prop}

/-- What is known of a thread all along a run that closes in turn. -/
structure Surveyed (m : Machine ν) (ledger : List Extent) (pile : Pile) : Prop where
  upright : Upright m ledger
  laden : ∃ known, Laden m ledger pile known
  drafted : ∃ draft, Drafted m draft
  beside : m.Beside Eq m

/-- One step in turn keeps all that is known of a thread. -/
theorem Surveyed.step (h : Surveyed m ledger pile) (hTurn : m.InTurn ledger)
    (hGoesOn : m.step.poisoned = false) :
    Surveyed m.step (m.move.apply ledger)
      (pile.after (m.entries?.getD .empty) m.deed) := by
  obtain ⟨known, hLaden⟩ := h.laden
  obtain ⟨draft, hDrafted⟩ := h.drafted
  exact ⟨h.upright.step hTurn hGoesOn, ⟨_, hLaden.step hTurn hGoesOn⟩,
    ⟨_, hDrafted.step⟩, h.beside.equal_step⟩

/-- All of it holds where a program starts. -/
theorem surveyed_start (process : Process) (auto : Bool) (limits : Option Limits)
    (body : List (Stmt ν)) :
    Surveyed (Machine.start process auto limits body)
      (Machine.start process auto limits body).opened [] :=
  ⟨upright_start process auto limits body, ⟨_, laden_start process auto limits body⟩,
    ⟨_, Drafted.start process auto limits body⟩,
    Machine.beside_self process auto limits body 0⟩

private theorem surveyed_of_reaches {start : Machine ν} {opened : List Extent}
    (h : Reaches allowed start opened m ledger)
    (hAllowed : ∀ m ledger, allowed m ledger → m.InTurn ledger)
    (hStart : Surveyed start opened []) :
    ∃ pile, Surveyed m ledger pile ∧
      ((∀ m ledger, allowed m ledger → ¬ m.StopsRaise) → none ∉ pile) := by
  induction h with
  | start => exact ⟨[], hStart, fun _ => List.not_mem_nil⟩
  | step before isAllowed goesOn ih =>
      obtain ⟨pile, hSurveyed, hWhole⟩ := ih
      refine ⟨_, hSurveyed.step (hAllowed _ _ isAllowed) goesOn, fun hNever => ?_⟩
      exact Pile.whole_after (hWhole hNever) fun hStops =>
        hNever _ _ isAllowed (Machine.stopsRaise_of_deed hStops)

/-- The record in flight while no raise is on its way was left behind. -/
theorem Surveyed.idle {context : Context} {index : Nat} (h : Surveyed m ledger pile)
    (hContext : m.context = some context)
    (hCourse : m.focus.course = .runs ∨ ∃ payload, m.focus.course = .unwinds payload ∧
      payload ≠ .raise)
    (hIndex : context.inFlight = some index) : pile[index]? = some none := by
  obtain ⟨known, hLaden⟩ := h.laden
  obtain ⟨flying, shelters, hFlows, hBurden⟩ := hLaden.burden
  have hLanded : flying = false := by
    obtain hRuns | ⟨payload, hUnwinds, hForeign⟩ := hCourse
    · exact hFlows.landed hRuns
    · unfold Machine.Flows at hFlows
      rw [hUnwinds] at hFlows
      exact hFlows.landed_of_panic hForeign
  subst hLanded
  rw [Machine.entries?_some hContext] at hBurden
  cases hBurden with
  | heaped hHeaped =>
      cases hHeaped with
      | rests counts piled idle => exact (idle index hIndex).found

/-- Nothing is in flight while no raise is on its way, if nothing was left behind. -/
theorem Surveyed.landed {context : Context} (h : Surveyed m ledger pile)
    (hWhole : none ∉ pile) (hContext : m.context = some context)
    (hCourse : m.focus.course = .runs ∨ ∃ payload, m.focus.course = .unwinds payload ∧
      payload ≠ .raise) :
    context.inFlight = none := by
  cases hIndex : context.inFlight with
  | none => rfl
  | some index =>
      exact absurd (List.mem_of_getElem? (h.idle hContext hCourse hIndex)) hWhole

/-- All along a protected region: the region stays open, and what was in flight or
parked when it was entered has not been mixed up with what was raised in it. -/
structure Visiting (allowed : Machine ν → List Extent → Prop) (visit : Visit)
    (found : Entries) (outer : List Extent)
    (m : Machine ν) (ledger : List Extent) (pile : Pile) : Prop where
  surveyed : Surveyed m ledger pile
  inside : ∃ above phase, ledger = above ++ .protecting visit phase :: outer
  housed : ∃ context, m.context = some context ∧ Housed visit found context.entries
  whole : (∀ m ledger, allowed m ledger → ¬ m.StopsRaise) →
    none ∉ pile.drop visit.entry.exceptions

/-- One step in a region. No step closes the thread, which lies below the region. -/
theorem Visiting.step (h : Visiting allowed visit found outer m ledger pile)
    (hFound : found.parked.length = outer.countP Extent.isGuardBody)
    (hTurn : m.InTurn ledger) (isAllowed : allowed m ledger)
    (hGoesOn : m.step.poisoned = false)
    (hStays : outer.length < (m.move.apply ledger).length) :
    Visiting allowed visit found outer m.step (m.move.apply ledger)
      (pile.after (m.entries?.getD .empty) m.deed) := by
  obtain ⟨above, phase, rfl⟩ := h.inside
  obtain ⟨context, hContext, hHoused⟩ := h.housed
  have hStands := h.surveyed.upright.stands
  have hNested := hStands.nested context hContext
  have hFits := hStands.fits hTurn
  have hVisit :
      visit ∈ (above ++ .protecting visit phase :: outer).filterMap Extent.protected? :=
    List.mem_filterMap.2 ⟨.protecting visit phase, by simp, rfl⟩
  have hOpen : m.deed ≠ .closes := by
    intro hCloses
    rw [hCloses] at hFits
    obtain ⟨rest, hRest⟩ := List.head?_eq_some_iff.1 hFits
    obtain ⟨_, hLayered, -⟩ := hNested
    rw [hRest] at hLayered hVisit
    cases hLayered.of_thread
    cases hVisit
  obtain ⟨after, hAfter, hTurns⟩ := hStands.turns hContext hOpen hGoesOn
  refine ⟨h.surveyed.step hTurn hGoesOn, ?_,
    ⟨after, hAfter, hHoused.turns hNested hTurns hFits hFound⟩, fun hNever => ?_⟩
  · have hSplit : above ++ .protecting visit phase :: outer =
        (above ++ [.protecting visit phase]) ++ outer := by simp
    rw [hSplit, Move.apply_append _ _ (by simp)] at hStays ⊢
    obtain hNil | ⟨above', phase', hLeft⟩ := Move.apply_region m.move above visit phase
    · rw [hNil] at hStays
      exact absurd hStays (Nat.lt_irrefl _)
    · exact ⟨above', phase', by rw [hLeft]; simp⟩
  · refine Pile.whole_above (h.whole hNever)
      (fun hStops => hNever _ _ isAllowed (Machine.stopsRaise_of_deed hStops))
      (fun left unwinding fate hLeaves => ?_) fun left hAbandons => ?_
    · rw [hLeaves] at hFits
      exact hNested.entry_le_left hFits visit hVisit
    · rw [hAbandons] at hFits
      have hLeft :
          (Deed.leaves left false .nothing).Fits
          (above ++ .protecting visit phase :: outer) := .inl hFits
      exact hNested.entry_le_left hLeft visit hVisit

/-- All along a region. -/
theorem Visiting.reaches {start : Machine ν} {opened : List Extent} {piled : Pile}
    (h : Reaches (fun m ledger => allowed m ledger ∧ outer.length < ledger.length)
      start opened m ledger)
    (hAllowed : ∀ m ledger, allowed m ledger → m.InTurn ledger)
    (hStart : Visiting allowed visit found outer start opened piled)
    (hFound : found.parked.length = outer.countP Extent.isGuardBody)
    (hOpen : outer.length < ledger.length) :
    ∃ pile, Visiting allowed visit found outer m ledger pile := by
  induction h with
  | start => exact ⟨piled, hStart⟩
  | step before isAllowed goesOn ih =>
      obtain ⟨pile, hVisiting⟩ := ih isAllowed.2
      exact ⟨_, hVisiting.step hFound (hAllowed _ _ isAllowed.1) isAllowed.1 goesOn
        hOpen⟩

/-- Nothing is closed where a region is entered. -/
theorem Machine.inTurn_protect (ledger : List Extent) {levels : Nat} {site : Site}
    {mode : Mode} {clauses : List (Clause ν)} {code : List (Stmt ν)}
    (hFocus : m.focus = .exec (.protect levels site mode clauses code)) :
    m.InTurn ledger :=
  ⟨by simp [closing?, hFocus], by simp [endsHandler?, hFocus]⟩

/-- A region is entered on what it finds. -/
theorem visiting_entered (allowed : Machine ν → List Extent → Prop) {before : Context}
    {levels : Nat} {site : Site} {mode : Mode} {clauses : List (Clause ν)}
    {code : List (Stmt ν)} (h : Surveyed m outer pile)
    (hFocus : m.focus = .exec (.protect levels site mode clauses code))
    (hContext : m.context = some before) (hGoesOn : m.step.poisoned = false) :
    ∃ visit pile, visit.entry = before.depths ∧
      Visiting allowed visit before.entries outer m.step (m.move.apply outer) pile := by
  have hTurn := Machine.inTurn_protect outer hFocus
  have hStands := h.upright.stands
  have hStep : m.step = m.protect levels site mode clauses code := by
    simp only [Machine.step, hFocus, Machine.exec]
  obtain ⟨context, visit, after, hSome, hOk, -⟩ := Machine.performed hStep hGoesOn
  obtain rfl := Option.some.inj (hContext.symm.trans hSome)
  obtain ⟨rfl, -⟩ := effect_enter.of_ok hOk
  generalize hVisit : (⟨before.nextId, site, before.depths, false⟩ : Visit) =
    visit at hOk
  have hEntry : visit.entry = before.depths := hVisit ▸ rfl
  have hDeed : m.deed = .enters visit := by
    simp only [Machine.deed, hFocus, Machine.deedOf]
    exact Machine.answering_ok hContext hOk
  have hMove : m.move = .opens (.protecting visit .body) := by
    simp only [Machine.move, hFocus]
    exact after_ok hContext hOk
  obtain ⟨entered, hEntered, hTurns⟩ := hStands.turns hContext (by simp [hDeed]) hGoesOn
  obtain ⟨hParked, hPlace⟩ :=
    hTurns.lays (hStands.nested before hContext) (hStands.fits hTurn)
  obtain ⟨known, hLaden⟩ := h.laden
  refine ⟨visit, _, hEntry, h.step hTurn hGoesOn, ⟨[], .body, by rw [hMove]; rfl⟩,
    ⟨entered, hEntered, [], ?_, ?_, ?_⟩, ?_⟩
  · rw [hParked, hDeed]
    rfl
  · obtain hSame | hMoved := hPlace
    · rw [hSame, hDeed]
      exact fun index hIndex => .inl hIndex
    · intro index hIndex
      obtain ⟨left, unwinding, fate, hLeaves, -⟩ := hMoved index hIndex
      cases hDeed.symm.trans hLeaves
  · exact fun place hMem => by cases hMem
  · intro hNever hMem
    rw [hDeed] at hMem
    have hLength : pile.length = before.depths.exceptions := by
      obtain ⟨flying, shelters, -, hBurden⟩ := hLaden.burden
      rw [Machine.entries?_some hContext] at hBurden
      rw [before.measured.exceptions]
      cases hBurden with
      | heaped hHeaped => cases hHeaped <;> assumption
    have hNothing : pile.drop visit.entry.exceptions = [] :=
      List.drop_eq_nil_of_le
        (Nat.le_of_eq (hLength.trans (congrArg Depths.exceptions hEntry).symm))
    change none ∈ pile.drop visit.entry.exceptions at hMem
    rw [hNothing] at hMem
    cases hMem

end

/-! ## The way out -/

/-- While a message is written, no region is left. -/
theorem Drafted.free_of_region {ν : Type} {m : Machine ν} {draft : Option (Draft ν)}
    {regions : List (Post ν)} (h : Drafted m draft)
    (hPosts : m.posts = .region :: regions) : m.inUse = false := by
  cases hUse : m.inUse with
  | false => rfl
  | true =>
      obtain ⟨_, _, _, _, -, -, hWrites, -⟩ := h.top_of_writing hUse hPosts
      cases hWrites

section

variable {ν : Type} {m : Machine ν} {ledger outer : List Extent} {pile : Pile}
    {visit : Visit} {phase : Phase} {payload : Payload}

/-- A panic that ends a region passes its body or its handler. -/
theorem Machine.passes_of_closes (hPanics : m.focus = .unwind payload)
    (hForeign : payload ≠ .raise) (hMove : m.move = .closes)
    (hTurn : m.InTurn (.protecting visit phase :: outer)) :
    ∃ region below, region.visit = visit ∧
      m.step = ({ m with control := below } : Machine ν).passThrough region payload ∧
      m.posts = .region :: below.filterMap Resumption.post? := by
  have hClosing := hTurn.closing
  have hHandler := hTurn.handler
  simp only [closing?, hPanics] at hClosing
  simp only [endsHandler?, hPanics] at hHandler
  simp only [move, hPanics] at hMove
  have hStep : m.step = m.propagate payload := by simp only [step, hPanics]
  have hPosts : m.posts = m.control.filterMap Resumption.post? := by
    unfold posts
    rw [hPanics]
    rfl
  cases hControl : m.control with
  | nil =>
      rw [hControl] at hMove
      cases hMove
  | cons waiting below =>
      rw [hControl] at hClosing hHandler hMove hPosts
      cases waiting with
      | body region =>
          refine ⟨region, below, ?_, ?_, hPosts⟩
          · cases hClosing _ rfl
            rfl
          · rw [hStep]
            unfold propagate
            rw [hControl]
            cases payload with
            | raise => exact absurd rfl hForeign
            | _ => rfl
      | handler region =>
          refine ⟨region, below, ?_, ?_, hPosts⟩
          · obtain ⟨caught, hHead⟩ := hHandler _ rfl
            cases hHead
            rfl
          · rw [hStep]
            unfold propagate
            rw [hControl]
      | thread auto =>
          cases auto with
          | false => cases hMove
          | true => cases hClosing _ rfl
      | _ => cases hMove

/-- What a panic that has passed a region leaves there. -/
inductive PassedBy (before after : Context) : Prop
  /-- The stacks are as high as the region found them, and what was in flight still is,
  unless the region has caught something meanwhile. -/
  | restored (depths : after.depths = before.depths)
    (flight : after.inFlight = before.inFlight ∨ after.inFlight = none)
  /-- A record that was raised in the region lies on top of what the region found, and
  passes for one that is in flight. -/
  | leftover
      (depths : after.depths =
      { before.depths with exceptions := before.depths.exceptions + 1 })
      (flight : after.inFlight = some before.depths.exceptions)

/-- What leaving a region while a panic unwinds leaves behind: all is as the region
found it, or a record that is in flight was raised in the region. -/
theorem passes_of_leave {context before after : Context}
    (hEntry : visit.entry = before.depths)
    (hHeights : after.depths.heights = visit.entry.heights)
    (hEntries : after.entries = context.entries.leave visit true)
    (hRecords : visit.entry.exceptions ≤ context.entries.records.length)
    (hFlight : ∀ index, context.inFlight = some index →
      index < context.entries.records.length)
    (hNative : Native visit before.inFlight context.inFlight) :
    (after.depths = before.depths ∧
      (after.inFlight = before.inFlight ∨ after.inFlight = none)) ∨
      (PassedBy before after ∧ ∃ index, context.inFlight = some index ∧
        visit.entry.exceptions ≤ index) := by
  have hPlace :
      after.inFlight = flightAfter context.inFlight visit.entry.exceptions true :=
    congrArg Entries.inFlight hEntries
  have hCount : after.depths.exceptions =
      (released context.inFlight visit.entry.exceptions true
        context.entries.records).length := by
    rw [after.measured.exceptions, hEntries]
    exact List.length_map _
  obtain ⟨hMoved, hLength⟩ | ⟨-, hKept, hLength, hOwn⟩ :=
    released_cases hRecords hFlight
  · refine .inl ⟨(Depths.eq_of_heights hHeights (hCount.trans hLength)).trans hEntry,
      ?_⟩
    rw [hPlace]
    cases hIndex : context.inFlight with
    | none => exact .inr rfl
    | some index =>
        rw [hIndex] at hMoved
        unfold flightAfter at hMoved ⊢
        dsimp only at hMoved ⊢
        split at hMoved
        · next hLow =>
            rw [if_pos hLow]
            obtain hSame | hHigh := hNative index hIndex
            · exact .inl hSame.symm
            · omega
        · exact absurd rfl hMoved
  · rw [hLength] at hCount
    have hDepths :
        after.depths = { visit.entry with exceptions := visit.entry.exceptions + 1 } :=
      Depths.eq_of_heights hHeights hCount
    rw [hEntry] at hDepths hKept
    refine .inr ⟨.leftover hDepths ?_, hOwn⟩
    rw [hPlace, hEntry]
    exact hKept

/-- Leaving a region while a panic unwinds succeeds, and keeps at most one record. -/
theorem Visiting.passes {allowed : Machine ν → List Extent → Prop} {before : Context}
    (h : Visiting allowed visit before.entries outer m
      (.protecting visit phase :: outer) pile)
    (hEntry : visit.entry = before.depths) (hPanics : m.focus = .unwind payload)
    (hForeign : payload ≠ .raise) (hMove : m.move = .closes)
    (hTurn : m.InTurn (.protecting visit phase :: outer)) :
    m.step.poisoned = false ∧ m.step.focus = .unwind payload ∧ ∃ after,
      m.step.context = some after ∧ PassedBy before after ∧
      ((∀ m ledger, allowed m ledger → ¬ m.StopsRaise) → after.depths = before.depths) ∧
      (m.context.bind Context.inFlight = none → after.inFlight = none) := by
  obtain ⟨context, hContext, inside, -, hNative, -⟩ := h.housed
  obtain ⟨region, below, rfl, hStep, hPosts⟩ :=
    Machine.passes_of_closes hPanics hForeign hMove hTurn
  obtain ⟨draft, hDrafted⟩ := h.surveyed.drafted
  obtain ⟨known, hLaden⟩ := h.surveyed.laden
  obtain ⟨limits, hSized⟩ := h.surveyed.beside.sized hContext
  have hClear := h.surveyed.upright.stands.clear
  have hNested := h.surveyed.upright.stands.nested context hContext
  have hFits :
      (Deed.leaves region.visit true .nothing).Fits
      (.protecting region.visit phase :: outer) := .inr ⟨phase, rfl⟩
  have hFlight (index : Nat) (hIndex : context.inFlight = some index) :
      index < context.entries.records.length := by
    obtain ⟨hCounts, hLow, -⟩ := hLaden.above_inFlight hContext hIndex
    exact hCounts ▸ hLow
  obtain ⟨-, hRecords⟩ := hNested.floor_le_entry Ground.firm_thread hFits
  obtain ⟨after, hOk, hEntries, hHeights⟩ :=
    leaves_of_aligned (h.surveyed.upright.aligned context hContext) hNested hSized hFits
      hFlight
  have hPasses :
      m.step = (({ m with control := below } : Machine ν).store after).goto
      (.unwind payload) := by
    obtain ⟨_, left, hLeft, -, hNext⟩ :=
      Machine.perform_answers (m := ({ m with control := below } : Machine ν))
      (fun m _ => m.goto (.unwind payload)) hContext (hDrafted.free_of_region hPosts)
      (show Ends (Context.leave region.visit true context) (fun _ _ => True)
        fun _ => False by rw [hOk]; trivial)
    cases hOk.symm.trans hLeft
    rw [hStep]
    unfold Machine.passThrough
    rw [if_neg (by simp [hClear])]
    exact hNext
  refine ⟨by
    rw [hPasses]; exact hClear, by
      rw [hPasses]; rfl, { after with journal := [] }, by rw [hPasses]; rfl, ?_⟩
  have hLeft :=
    @passes_of_leave region.visit context before { after with journal := []
    } hEntry hHeights hEntries hRecords hFlight
    hNative
  refine ⟨hLeft.elim (fun hSame => .restored hSame.1 hSame.2) fun hMore => hMore.1,
    fun hNever => ?_, fun hNone => ?_⟩
  · obtain hSame | ⟨-, index, hIndex, hOwn⟩ := hLeft
    · exact hSame.1
    · have hStopped :=
        h.surveyed.idle hContext (.inr ⟨payload, by rw [hPanics]; rfl, hForeign⟩) hIndex
      exact absurd (mem_drop_of_getElem? hStopped hOwn) (h.whole hNever)
  · rw [hContext] at hNone
    have hGone : context.entries.inFlight = none := hNone
    change after.entries.inFlight = none
    rw [hEntries, Entries.leave, hGone]
    rfl

end

/-! ## The law -/

/-- A region that is entered, and what is going on in it while it is open. -/
structure Enclosed {ν : Type} (earlier allowed : Machine ν → List Extent → Prop)
    (start entering : Machine ν) (before : Context)
    (outer : List Extent) (m : Machine ν) (ledger : List Extent) : Prop where
  arrives : Reaches earlier start start.opened entering outer
  protects : ∃ levels site mode clauses code,
    entering.focus = .exec (.protect levels site mode clauses code)
  finds : entering.context = some before
  enters : entering.step.poisoned = false
  inside : Reaches (fun m ledger => allowed m ledger ∧ outer.length < ledger.length)
    entering.step (entering.move.apply outer)
    m ledger
  isOpen : outer.length < ledger.length

/-- Where no raise is stopped, neither before a region nor in it, none is stopped on the
way. -/
theorem Enclosed.unstopped {ν : Type} {earlier allowed : Machine ν → List Extent → Prop}
    {start entering m : Machine ν} {before : Context} {outer ledger : List Extent}
    (h : Enclosed earlier allowed start entering before outer m ledger)
    (hEarlier : ∀ m ledger, earlier m ledger → m.InTurn ledger)
    (hAllowed : ∀ m ledger, allowed m ledger → m.InTurn ledger)
    (hNever : ∀ m ledger, earlier m ledger ∨ allowed m ledger → ¬ m.StopsRaise) :
    Reaches Machine.Orderly start start.opened m ledger := by
  obtain ⟨_, _, _, _, _, hFocus⟩ := h.protects
  have hBefore : Reaches Machine.Orderly start start.opened entering outer :=
    h.arrives.mono fun m ledger isAllowed =>
      ⟨hEarlier m ledger isAllowed, hNever m ledger (.inl isAllowed)⟩
  have hEnters : ¬ entering.StopsRaise :=
    fun hStops => by cases hFocus.symm.trans hStops.1
  refine (hBefore.step ⟨Machine.inTurn_protect outer hFocus, hEnters⟩ h.enters).trans ?_
  exact h.inside.mono fun m ledger isAllowed =>
    ⟨hAllowed m ledger isAllowed.1, hNever m ledger (.inr isAllowed.1)⟩

/-- In a run that closes in turn, a region that a panic leaves lets it pass unchanged,
and never fails. The stacks are then as high as the region found them, unless a raise
was stopped in the region whose record is taken for one in flight; and what was in
flight still is, unless raises were stopped before.

The record of a raise that was stopped is still referred to as the one in flight, and
the region treats it like that of an exception that it hands on. -/
theorem panic_passes {ν : Type} {earlier allowed : Machine ν → List Extent → Prop}
    {process : Process} {auto : Bool} {limits : Option Limits} {body : List (Stmt ν)}
    {entering m : Machine ν} {before : Context} {outer ledger : List Extent}
    {payload : Payload} (hEarlier : ∀ m ledger, earlier m ledger → m.InTurn ledger)
    (hAllowed : ∀ m ledger, allowed m ledger → m.InTurn ledger)
    (h : Enclosed earlier allowed (.start process auto limits body) entering before
      outer m ledger)
    (hTurn : m.InTurn ledger) (hPanics : m.focus = .unwind payload)
    (hForeign : payload ≠ .raise)
    (hLeaves : (m.move.apply ledger).length = outer.length) :
    m.step.poisoned = false ∧ m.step.focus = .unwind payload ∧ ∃ after,
      m.step.context = some after ∧ PassedBy before after ∧
      ((∀ m ledger, allowed m ledger → ¬ m.StopsRaise) → after.depths = before.depths) ∧
      ((∀ m ledger, earlier m ledger ∨ allowed m ledger → ¬ m.StopsRaise) →
        after.inFlight = before.inFlight) := by
  obtain ⟨_, _, _, _, _, hFocus⟩ := h.protects
  have hStart := surveyed_start process auto limits body
  obtain ⟨pile, hSurveyed, hWhole⟩ := surveyed_of_reaches h.arrives hEarlier hStart
  obtain ⟨visit, piled, hEntry, hEntered⟩ :=
    visiting_entered allowed hSurveyed hFocus h.finds h.enters
  have hParked := (hSurveyed.upright.stands.nested before h.finds).length_parked
  obtain ⟨pile, hVisiting⟩ :=
    Visiting.reaches h.inside hAllowed hEntered hParked h.isOpen
  have hMove : m.move = .closes := Move.closes_of_shorter (hLeaves ▸ h.isOpen)
  obtain ⟨above, phase, rfl⟩ := hVisiting.inside
  obtain rfl : above = [] := by
    rw [hMove] at hLeaves
    cases above with
    | nil => rfl
    | cons top rest =>
        have hLonger : (rest ++ .protecting visit phase :: outer).length =
            outer.length := hLeaves
        rw [List.length_append, List.length_cons] at hLonger
        omega
  obtain ⟨hClear, hUnwinds, after, hAfter, hPassed, hHigh, hLands⟩ :=
    hVisiting.passes hEntry hPanics hForeign hMove hTurn
  refine ⟨hClear, hUnwinds, after, hAfter, hPassed, hHigh, fun hNever => ?_⟩
  obtain ⟨context, hContext, -⟩ := hVisiting.housed
  obtain ⟨whole, hRun, hNone⟩ :=
    surveyed_of_reaches (h.unstopped hEarlier hAllowed hNever)
      (fun _ _ isAllowed => isAllowed.1) hStart
  have hNow :=
    hRun.landed (hNone fun _ _ isAllowed => isAllowed.2)
    hContext (.inr ⟨payload, by rw [hPanics]; rfl, hForeign⟩)
  have hThen :=
    hSurveyed.landed (hWhole fun m ledger isAllowed => hNever m ledger (.inl isAllowed))
    h.finds
    (.inl (by rw [hFocus]; rfl))
  rw [hThen]
  exact hLands (by rw [hContext]; exact hNow)

/-- A region whose body does something and then panics. -/
def panicsAfter (first : List (Stmt Nat)) : List (Stmt Nat) :=
  [.protect 1 ⟨"main", 1, "main"⟩ .run catchAll (first ++ [.panic (some "broken")])]

/-- The payload of the unwinding that the next step goes on with. -/
def Focus.payload? {ν : Type} : Focus ν → Option Payload
  | .unwind payload => some payload
  | _ => none

private theorem Focus.eq_of_payload? {ν : Type} {focus : Focus ν} {payload : Payload}
    (h : focus.payload? = some payload) :
    focus = .unwind payload := by
  cases focus with
  | unwind found => cases h; rfl
  | _ => cases h

/-- The run of `panicsAfter` enters its region with the second step. With so many more
the panic arrives there. -/
theorem enclosed_panicsAfter {first : List (Stmt Nat)}
    {allowed : Machine Nat → List Extent → Prop}
    [∀ m ledger, Decidable (allowed m ledger)] (count : Nat) (test : Machine Nat → Bool)
    (hFirst : allowed (.start {} true none (panicsAfter first)) [.thread])
    (h : (follow (fun m ledger => allowed m ledger ∧ 1 < ledger.length) count
      (Machine.start {} true none (panicsAfter first)).step.step
      ((Machine.start {} true none (panicsAfter first)).step.move.apply [.thread])).any
        (fun state =>
        decide (1 < state.2.length) && decide (state.1.InTurn state.2) &&
          decide (state.1.focus.payload? = some (.panic (some "broken"))) &&
            (state.1.move.apply state.2).length == 1 &&
          test state.1) = true) :
    ∃ m ledger, Enclosed allowed allowed (.start {} true none (panicsAfter first))
      (Machine.start {} true none (panicsAfter first)).step
        (.new {} ({} : Config).limits) [.thread] m ledger ∧
      m.InTurn ledger ∧ m.focus = .unwind (.panic (some "broken")) ∧
        (m.move.apply ledger).length = 1 ∧ test m = true := by
  obtain ⟨m, ledger, hReaches, hTest⟩ :=
    Reaches.of_follow count
    (fun m ledger => decide (1 < ledger.length) && decide (m.InTurn ledger) &&
    decide (m.focus.payload? = some (.panic (some "broken"))) &&
    (m.move.apply ledger).length == 1 && test m) h
  simp only [Bool.and_eq_true, decide_eq_true_eq, beq_iff_eq] at hTest
  obtain ⟨⟨⟨⟨hOpen, hTurn⟩, hPanics⟩, hLeaves⟩, hTest⟩ := hTest
  exact ⟨m, ledger,
    ⟨.step .start hFirst rfl, ⟨_, _, _, _, _, rfl⟩, rfl, rfl, hReaches, hOpen⟩, hTurn,
    Focus.eq_of_payload? hPanics, hLeaves, hTest⟩

/-- The law speaks of a region whose body runs `catching` before it panics: the stacks
are as high as the region found them. -/
theorem panic_passes_caught :
    ∃ (m : Machine Nat) (after : Context), m.focus = .unwind (.panic (some "broken")) ∧
      m.step.focus = m.focus ∧
      m.step.context = some after ∧ after.depths = {} ∧ after.inFlight = none := by
  obtain ⟨m, ledger, hEnclosed, hTurn, hPanics, hLeaves, -⟩ :=
    @enclosed_panicsAfter catching Machine.Orderly _ 26 (fun _ => true)
    (by decide +kernel) (by decide +kernel)
  obtain ⟨-, hPasses, after, hAfter, -, hDepths, hFlight⟩ :=
    panic_passes (fun _ _ isAllowed => isAllowed.1)
    (fun _ _ isAllowed => isAllowed.1) hEnclosed hTurn hPanics (by simp) hLeaves
  exact ⟨m, after, hPanics, hPasses.trans hPanics.symm, hAfter,
    hDepths fun _ _ isAllowed => isAllowed.2,
    hFlight fun _ _ isAllowed => isAllowed.elim And.right And.right⟩

/-- The body of a region stops a raise of its own and panics. The record of that raise
passes for one that is in flight to a region further out, so the region leaves it
behind, and does not find fault with it.

The region compares depths when it is left, but takes the record off the comparison, as
it does for an exception that it hands on. -/
theorem leftover_passes :
    ∃ (m : Machine Nat) (ledger : List Extent) (before after : Context),
      Enclosed Machine.InTurn Machine.InTurn
        (.start {} true none (panicsAfter [stopsOwn]))
        (Machine.start {} true none (panicsAfter [stopsOwn])).step before [.thread]
          m ledger ∧
      m.InTurn ledger ∧ m.focus = .unwind (.panic (some "broken")) ∧
        (m.move.apply ledger).length = 1 ∧
      m.step.poisoned = false ∧ m.step.context = some after ∧ before.depths.exceptions =
        0 ∧ before.inFlight = none ∧
      after.depths.exceptions = 1 ∧ after.inFlight = some 0 := by
  obtain ⟨m, ledger, hEnclosed, hTurn, hPanics, hLeaves, hTest⟩ :=
    @enclosed_panicsAfter [stopsOwn] Machine.InTurn _ 11
    (fun (m : Machine Nat) => !m.step.poisoned && m.step.context.any
      fun (after : Context) =>
      decide (after.depths.exceptions = 1) && decide (after.inFlight = some 0))
    (by decide +kernel) (by decide +kernel)
  simp only [Bool.and_eq_true, Bool.not_eq_true', decide_eq_true_eq, Option.any_eq_true]
    at hTest
  obtain ⟨hClear, after, hAfter, hDepth, hFlight⟩ := hTest
  exact ⟨m, ledger, _, after, hEnclosed, hTurn, hPanics, hLeaves, hClear, hAfter, rfl,
    rfl, hDepth, hFlight⟩

end Unwinding
