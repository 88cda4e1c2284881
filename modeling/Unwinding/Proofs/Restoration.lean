import Unwinding.Proofs.WellFormed

/-!
# What a protected region leaves behind

A protected region that is left, in whatever way, leaves the stacks of the thread
exactly as it found them, entry by entry: marks with their states, frames with their
annotations, records with their traces. The one thing that it may leave behind is the
record of the exception that it is left by.

The run inside the region is compared with what the region found: the ledger of the run
is split at the region, and the invariant of `lands_step` is used with the entries that
the region found as the base.

## Main results

* `leaves_region` — how the step that leaves a region ends.
* `region_restores` — the law about a region; and that a strict run is terminated only
  for a reason that the program brought about.
-/

namespace Unwinding

variable {ν : Type}

/-! ## The run inside a region -/

namespace Move

/-- A ledger that ends with a protected region ends with that region after a move, or is
empty. -/
theorem apply_region (move : Move) (above : List Extent) (visit : Visit)
    (phase : Phase) :
    move.apply (above ++ [.protecting visit phase]) = [] ∨
      ∃ above' phase', move.apply (above ++ [.protecting visit phase]) =
        above' ++ [.protecting visit phase'] := by
  cases move with
  | stay => exact .inr ⟨_, _, rfl⟩
  | opens extent => exact .inr ⟨extent :: above, _, rfl⟩
  | closes =>
      cases above with
      | nil => exact .inl rfl
      | cons top rest => exact .inr ⟨rest, _, rfl⟩
  | turns next =>
      cases above with
      | nil => exact .inr ⟨[], next, rfl⟩
      | cons top rest =>
          cases top with
          | protecting inner old => exact .inr ⟨.protecting inner next :: rest, _, rfl⟩
          | thread => exact .inr ⟨.thread :: rest, _, rfl⟩
          | call entry => exact .inr ⟨.call entry :: rest, _, rfl⟩
          | region inner => exact .inr ⟨.region inner :: rest, _, rfl⟩
          | scope mark => exact .inr ⟨.scope mark :: rest, _, rfl⟩
          | guardBody mark => exact .inr ⟨.guardBody mark :: rest, _, rfl⟩

/-- Only a move that closes the innermost extent empties a ledger. -/
theorem closes_of_apply_eq_nil {move : Move} {ledger : List Extent}
    (h : move.apply ledger = []) (hLedger : ledger ≠ []) :
    move = .closes ∧ ∃ extent, ledger = [extent] := by
  obtain ⟨top, rest, rfl⟩ := List.exists_cons_of_ne_nil hLedger
  cases move with
  | stay => cases h
  | opens extent => cases h
  | closes =>
      obtain rfl : rest = [] := h
      exact ⟨rfl, top, rfl⟩
  | turns phase => cases top <;> cases h

end Move

namespace Machine

/-- An extent that is given up in turn is the innermost one of what is open above
others. -/
theorem InTurn.of_append {m : Machine ν} {above below : List Extent}
    (h : m.InTurn (above ++ below)) (hAbove : above ≠ []) :
    m.InTurn above := by
  obtain ⟨top, rest, rfl⟩ := List.exists_cons_of_ne_nil hAbove
  exact ⟨h.closing, h.handler⟩

private theorem Strict.of_append {m : Machine ν} {above below : List Extent}
    (h : m.Strict (above ++ below)) (hAbove : above ≠ []) :
    m.Strict above :=
  ⟨⟨h.1.1.of_append hAbove, h.1.2⟩, h.2⟩

/-- A step that closes nothing when it succeeds closes nothing. -/
theorem after_ne_closes {α : Type} {m : Machine ν} {step : Step α} {move : α → Move}
    (h : ∀ answer, move answer ≠ .closes) :
    m.after step move ≠ .closes := by
  unfold after
  split
  · simp
  · split
    · exact h _
    · simp

/-- The only statement that closes anything gives up a handle. -/
theorem release_of_closes {m : Machine ν} {stmt : Stmt ν}
    (hFocus : m.focus = .exec stmt) (hMove : m.move = .closes) :
    ∃ name how, stmt = .release name how := by
  cases stmt with
  | release name how => exact ⟨name, how, rfl⟩
  | acquire name opening times =>
      cases times with
      | zero => simp [move, hFocus] at hMove
      | succ times =>
          simp only [move, hFocus] at hMove
          cases opening with
          | thread limits =>
              dsimp only at hMove
              split at hMove <;> cases hMove
          | region site => exact absurd hMove (after_ne_closes (by simp))
          | call site => exact absurd hMove (after_ne_closes (by simp))
          | guards site => cases hMove
  | protect levels site mode clauses body =>
      simp only [move, hFocus] at hMove
      exact absurd hMove (after_ne_closes (by simp))
  | guard name flavor body =>
      simp only [move, hFocus] at hMove
      split at hMove
      · split at hMove
        · exact absurd hMove (after_ne_closes (by simp))
        · cases hMove
      · cases hMove
  | _ => simp [move, hFocus] at hMove

/-- A statement never leaves a protected region. -/
theorem exec_ne_closes {m : Machine ν} {stmt : Stmt ν} {visit : Visit} {phase : Phase}
    (hFocus : m.focus = .exec stmt) (hTurn : m.InTurn [.protecting visit phase]) :
    m.move ≠ .closes := by
  intro hMove
  obtain ⟨name, how, rfl⟩ := release_of_closes hFocus hMove
  have hClosing := hTurn.closing
  simp only [closing?, hFocus] at hClosing
  simp only [move, hFocus] at hMove
  split at hMove
  · next hTake =>
      simp only [hTake] at hClosing
      cases hClosing _ rfl
  · next hTake =>
      simp only [hTake] at hClosing
      cases hClosing _ rfl
  · cases hMove

private theorem focus_passThrough {m : Machine ν} {region : Protected ν}
    {payload : Payload} (hClear : m.poisoned = false)
    (hGoesOn : (m.passThrough region payload).poisoned = false) :
    (m.passThrough region payload).focus = .unwind payload ∧
      ∃ after, (m.passThrough region payload).context = some after := by
  unfold passThrough at hGoesOn ⊢
  rw [if_neg (by simp [hClear])] at hGoesOn ⊢
  obtain ⟨context, answer, after, -, -, hNext⟩ := perform_goesOn hGoesOn
  rw [hNext]
  exact ⟨rfl, _, rfl⟩

/-- The innermost protected region is left by an unwinding that goes on, or with an
outcome. -/
theorem leaves_region {m : Machine ν} {visit : Visit} {phase : Phase}
    (hTurn : m.InTurn [.protecting visit phase])
    (hPoised : Poised m.focus [.protecting visit phase]) (hMove : m.move = .closes)
    (hClear : m.poisoned = false) (hGoesOn : m.step.poisoned = false) :
    (m.step.focus.course = .runs ∨ ∃ payload, m.step.focus = .unwind payload) ∧
      ∃ after, m.step.context = some after := by
  have hClosing := hTurn.closing
  cases hFocus : m.focus with
  | exec stmt => exact absurd hMove (exec_ne_closes hFocus hTurn)
  | drop handle =>
      simp only [closing?, hFocus] at hClosing
      cases handle with
      | guards scope => simp [move, hFocus] at hMove
      | thread => cases hClosing _ rfl
      | region visit inUnwinding => cases hClosing _ rfl
      | call entry inUnwinding => cases hClosing _ rfl
  | leaveScope scope =>
      rw [hFocus] at hPoised
      obtain ⟨rest, hRest⟩ := hPoised
      cases hRest
  | deliver value =>
      simp only [closing?, hFocus] at hClosing
      simp only [move, hFocus] at hMove
      split at hMove
      · refine absurd hMove (after_ne_closes fun answer => ?_)
        cases answer <;> simp
      · next hControl =>
          rw [hControl] at hClosing
          cases hClosing _ rfl
      · next hControl =>
          rw [hControl] at hClosing
          cases hClosing _ rfl
      · cases hMove
  | unwind payload =>
      suffices hUnwinds : m.step.focus = .unwind payload ∧ ∃ after,
        m.step.context = some after from
        ⟨.inr ⟨payload, hUnwinds.1⟩, hUnwinds.2⟩
      simp only [closing?, hFocus] at hClosing
      simp only [move, hFocus] at hMove
      have hStep : m.step = m.propagate payload := by simp only [step, hFocus]
      rw [hStep] at hGoesOn ⊢
      unfold propagate at hGoesOn ⊢
      cases hControl : m.control with
      | nil =>
          rw [hControl] at hMove
          cases hMove
      | cons waiting below =>
          rw [hControl] at hMove hClosing hGoesOn
          cases waiting with
          | body region =>
              cases payload with
              | raise => exact absurd hMove (after_ne_closes (by simp))
              | panic text => exact focus_passThrough hClear hGoesOn
              | termination termination => exact focus_passThrough hClear hGoesOn
          | handler region => exact focus_passThrough hClear hGoesOn
          | thread auto =>
              cases auto with
              | false => cases hMove
              | true => cases hClosing _ rfl
          | _ => cases hMove
  | leave region outcome =>
      have hStep : m.step = m.leave region outcome := by simp only [step, hFocus]
      rw [hStep] at hGoesOn ⊢
      unfold leave at hGoesOn ⊢
      obtain ⟨context, answer, after, -, -, hNext⟩ := perform_goesOn hGoesOn
      rw [hNext]
      cases outcome with
      | ok value => cases region.mode <;> exact ⟨.inl rfl, _, rfl⟩
      | error exception => cases region.mode <;> exact ⟨.inl rfl, _, rfl⟩
  | offer region exception =>
      simp only [move, hFocus] at hMove
      split at hMove <;> cases hMove
  | _ => simp [move, hFocus] at hMove

/-- A protected region that is entered is open from then on. -/
theorem move_of_protect {m : Machine ν} {levels : Nat} {site : Site} {mode : Mode}
    {clauses : List (Clause ν)} {body : List (Stmt ν)}
    (hFocus : m.focus = .exec (.protect levels site mode clauses body))
    (hGoesOn : m.step.poisoned = false) :
    ∃ visit, m.move = .opens (.protecting visit .body) := by
  have hStep : m.step = m.protect levels site mode clauses body := by
    simp only [step, hFocus, exec]
  obtain ⟨context, visit, after, hContext, hOk, -⟩ := performed hStep hGoesOn
  exact ⟨visit, by simp only [move, hFocus]; exact after_ok hContext hOk⟩

end Machine

/-! ## What is left behind -/

/-- The entries of all stacks and the record in flight are what they were. -/
structure Restores (before after : Context) : Prop where
  regions : after.regions.live = before.regions.live
  dispatch : after.dispatch.live = before.dispatch.live
  guards : after.guards.live = before.guards.live
  frames : after.frames.live = before.frames.live
  records : after.records.live = before.records.live
  inFlight : after.inFlight = before.inFlight

/-- The entries of all stacks are what they were, but for one record on top, which is in
flight. -/
structure Carries (before after : Context) (record : Record) : Prop where
  regions : after.regions.live = before.regions.live
  dispatch : after.dispatch.live = before.dispatch.live
  guards : after.guards.live = before.guards.live
  frames : after.frames.live = before.frames.live
  records : after.records.live = record :: before.records.live
  inFlight : after.inFlight = some before.records.depth

/-- What a region leaves behind. An exception that none of its clauses has caught is
sent on by a step of its own.

An exception leaves with exactly one record, and the place of that record is known, so
the region further out finds it where it looks. -/
inductive LeftBehind (before : Context) (m : Machine ν) : Prop
  | restored (after : Context) (hContext : m.context = some after)
    (hFocus : m.focus ≠ .unwind .raise)
    (same : Restores before after)
    (forwards : ∀ exception, m.focus = .forward exception → m.step.poisoned = false →
        ∃ later, m.step.context = some later ∧ m.step.focus = .unwind .raise ∧
          Carries before later (.ofException exception))
  | raising (after : Context) (record : Record) (hContext : m.context = some after)
      (hFocus : m.focus = .unwind .raise)
      (carries : Carries before after record)

section

variable {before after : Context} {books : Books} {floor : Nat} {flying : Bool}
    {parked : List Bool} {left : Books}

/-- With nothing open above it, the shape of the books is the base. -/
theorem Keeps.shape_eq {base : Shape}
    (h : Keeps base floor after [] flying parked left) : left.shape = base := by
  have built := h.built
  generalize left.shape = shape at built
  cases built
  rfl

/-- What is there at one point of a run is a base for what comes after. -/
theorem Keeps.asBase {base : Shape} {ledger : List Extent}
    (h : Keeps base floor before ledger flying parked books) :
    Keeps books.shape books.nextId before [] flying parked books :=
  ⟨h.represents, .base (Nat.le_refl _),
    ⟨h.built.owner_lt h.grounded, h.built.anchored h.grounded⟩, h.anchored, h.isFlying,
    h.parks⟩

private theorem Keeps.restores (h : Keeps books.shape floor after [] false parked left)
    (hBefore : Represents before books) (hFlight : books.flight = none) :
    Restores before after := by
  have hShape := h.shape_eq
  have hLanded := h.landed
  have hAfter := h.represents
  exact
    { regions := by rw [hAfter.regions, hBefore.regions, hShape]
      dispatch := by rw [hAfter.dispatch, hBefore.dispatch, hShape]
      guards := by rw [hAfter.guards, hBefore.guards, hShape]
      frames := by rw [hAfter.frames, hBefore.frames, hShape]
      records := by rw [hAfter.records, hBefore.records, hShape, hLanded, hFlight]
      inFlight := by rw [hAfter.inFlight, hBefore.inFlight, hLanded, hFlight]; rfl }

private theorem Keeps.carries {record : Record}
    (h : Keeps books.shape floor after [] flying parked left)
    (hRecord : left.flight = some record) (hBefore : Represents before books)
    (hFlight : books.flight = none) :
    Carries before after record := by
  have hShape := h.shape_eq
  have hAfter := h.represents
  have hDepth : before.records.depth = books.shape.records.length := by
    rw [before.records.depth_eq, hBefore.records, hFlight]
    rfl
  exact
    { regions := by rw [hAfter.regions, hBefore.regions, hShape]
      dispatch := by rw [hAfter.dispatch, hBefore.dispatch, hShape]
      guards := by rw [hAfter.guards, hBefore.guards, hShape]
      frames := by rw [hAfter.frames, hBefore.frames, hShape]
      records := by rw [hAfter.records, hBefore.records, hShape, hRecord, hFlight]; rfl
      inFlight := by rw [hAfter.inFlight, hRecord, hShape, hDepth]; rfl }

end

/-- An exception that is sent on lies on what was there before. -/
theorem forward_carries {m : Machine ν} {books left : Books} {before after : Context}
    {floor : Nat} {parked : List Bool} {exception : Exception}
    (h : Keeps books.shape floor after [] false parked left)
    (hBefore : Represents before books) (hFlight : books.flight = none)
    (hContext : m.context = some after) (hFocus : m.focus = .forward exception)
    (hGoesOn : m.step.poisoned = false) :
    ∃ later, m.step.context = some later ∧ m.step.focus = .unwind .raise ∧
      Carries before later (.ofException exception) := by
  have hStep : m.step = m.forward exception := by simp only [Machine.step, hFocus]
  rw [hStep] at hGoesOn ⊢
  obtain ⟨context, answer, later, hSome, hOk, hNext⟩ := Machine.perform_goesOn hGoesOn
  obtain rfl := Option.some.inj (hContext.symm.trans hSome)
  have hEnds := @ends_forward _ _ exception h.represents h.landed
  rw [hOk] at hEnds
  unfold Machine.forward
  rw [hNext]
  obtain ⟨-, rfl, hLater⟩ | ⟨-, rfl⟩ := hEnds
  · have hKeeps : Keeps books.shape floor later []
        true parked { left with flight := some (.ofException exception) } :=
      ⟨hLater, h.built, h.grounded, fun record hMem => by cases hMem; rfl, rfl, h.parks⟩
    exact ⟨_, rfl, rfl, { hKeeps.carries rfl hBefore hFlight with }⟩
  · unfold Machine.forward at hGoesOn
    rw [hNext] at hGoesOn
    cases hGoesOn.symm.trans (Machine.poisoned_terminate _ _)

/-- What a strict step does inside a region is in turn there, and leaves what the region
found alone. -/
private theorem strict_inside {base : Shape} {floor : Nat} {m : Machine ν}
    {above outer : List Extent} {visit : Visit} {phase : Phase}
    (h : m.Strict (above ++ [.protecting visit phase] ++ outer)) :
    m.Orderly (above ++ [.protecting visit phase]) ∧ (True → ¬ m.LeavesStale) ∧
      Untouched base floor (above ++ [.protecting visit phase]) := by
  have hStrict := h.of_append (by simp)
  exact ⟨hStrict.1, fun _ => hStrict.2, .inr ⟨visit, phase, by simp⟩⟩

/-- Inside a region, the ledger is that of the code around it and what the region
opened, and what the region opened is accounted for by itself. -/
theorem sound_inside {base : Shape} {floor : Nat} {entered now : Situation ν}
    {outer : List Extent} {visit : Visit}
    (h : ConsultsAbove outer Machine.Strict (fun payload => payload ≠ .raise) entered
      now)
    (hEntered : entered.ledger = .protecting visit .body :: outer)
    (hStart : ∃ flying parked,
      Sound base floor True entered.machine [.protecting visit .body] flying parked) :
    ∃ inner, now.ledger = inner ++ outer ∧
      (inner = [] ∨ ∃ above visit phase, inner = above ++ [.protecting visit phase]) ∧
      ∃ flying parked, Sound base floor True now.machine inner flying parked := by
  induction h with
  | refl => exact ⟨_, hEntered, .inr ⟨[], visit, .body, rfl⟩, hStart⟩
  | tail before onward ih =>
      obtain ⟨hOpen, deed, hOnward⟩ := onward
      obtain ⟨inner, hLedger, hInner, hSound⟩ := ih
      obtain rfl | ⟨above, innermost, phase, rfl⟩ := hInner
      · rw [hLedger] at hOpen
        exact absurd hOpen (by simp)
      · have hNonempty : above ++ [.protecting innermost phase] ≠ [] := by simp
        obtain ⟨move, hNext, hAfter⟩ := hOnward.sound hLedger (.inl hNonempty)
          (fun m hAllowed => strict_inside hAllowed) (fun _ hPanic => hPanic) hSound
        exact ⟨_, hNext, (Move.apply_region move above innermost phase).imp_right
          fun ⟨above', phase', hLeft⟩ => ⟨above', innermost, phase', hLeft⟩, hAfter⟩

section

variable {before : Context} {books : Books} {m : Machine ν} {flying : Bool}
    {parked : List Bool}

/-- A region that is entered finds what it will be compared with. -/
theorem sound_entered {ledger : List Extent} {levels : Nat} {site : Site} {mode : Mode}
    {clauses : List (Clause ν)} {code : List (Stmt ν)}
    (hSound : Sound {} 0 True m ledger flying parked)
    (hKeeps : Keeps {} 0 before ledger false parked books)
    (hFocus : m.focus = .exec (.protect levels site mode clauses code))
    (hContext : m.context = some before) (hGoesOn : m.step.poisoned = false) :
    ∃ flying parked, Sound books.shape books.nextId True m.step (m.move.apply [])
      flying parked := by
  have hRuns : m.focus.course = .runs := by rw [hFocus]; rfl
  obtain rfl := hSound.landed hRuns
  have hEntering : Sound books.shape books.nextId True m [] false parked :=
    ⟨hSound.clear, by
      rw [hContext]; exact ⟨books, hKeeps.asBase⟩, by rw [hFocus]; trivial, hSound.flow⟩
  have hStep : m.step = m.protect levels site mode clauses code := by
    simp only [Machine.step, hFocus, Machine.exec]
  have hLands := hEntering.protect hFocus
  rw [← hStep] at hLands
  obtain hLands | ⟨hPoisoned, -⟩ := hLands
  · exact hLands
  · cases hGoesOn.symm.trans hPoisoned

/-- A machine that is sound above what a region found, with the region left and nothing
else open, has left that behind. -/
private theorem leftBehind_of_sound {floor : Nat} {after : Context}
    (hBefore : Represents before books) (hFlight : books.flight = none)
    (hSound : Sound books.shape floor True m [] flying parked)
    (hContext : m.context = some after)
    (hCourse : m.focus.course = .runs ∨ ∃ payload, m.focus = .unwind payload) :
    LeftBehind before m := by
  obtain ⟨left, hLeft⟩ := hSound.keeps hContext
  have hReturns (hNone : flying = false) (hNot : m.focus ≠ .unwind .raise) :
      LeftBehind before m := by
    subst hNone
    exact .restored after hContext hNot (hLeft.restores hBefore hFlight)
      fun exception hForward hOn =>
      forward_carries hLeft hBefore hFlight hContext hForward hOn
  obtain hRuns | ⟨payload, hUnwinds⟩ := hCourse
  · exact hReturns (hSound.landed hRuns) fun hRaise => by
      rw [hRaise] at hRuns; cases hRuns
  · have hFlow := hSound.flow
    rw [hUnwinds] at hFlow
    by_cases hRaise : payload = .raise
    · subst hRaise
      have hFlying := hLeft.isFlying.trans (hFlow.flying_of_raise trivial)
      obtain ⟨record, hRecord⟩ := Option.isSome_iff_exists.1 hFlying
      exact .raising after record hContext hUnwinds
        (hLeft.carries hRecord hBefore hFlight)
    · refine hReturns ?_ fun hSame =>
        hRaise (by rw [hUnwinds] at hSame; exact Focus.unwind.inj hSame)
      cases flying with
      | false => rfl
      | true => exact absurd (hFlow.carries rfl) hRaise

/-- The step that leaves a region leaves behind what the region found. -/
theorem leftBehind_of_step {floor : Nat} {visit : Visit} {phase : Phase}
    (hBefore : Represents before books) (hFlight : books.flight = none)
    (hSound : Sound books.shape floor True m [.protecting visit phase] flying parked)
    (hStrict : m.Strict [.protecting visit phase]) (hCloses : m.move = .closes)
    (hGoesOn : m.step.poisoned = false) :
    LeftBehind before m.step := by
  have hUntouched : Untouched books.shape floor [.protecting visit phase] :=
    .inr ⟨visit, phase, by simp⟩
  have hLands := lands_step hSound hUntouched hStrict.1.1 hStrict.1.2 fun _ => hStrict.2
  rw [hCloses] at hLands
  obtain ⟨flying, parked, hAfter⟩ | ⟨hPoisoned, -⟩ := hLands
  · obtain ⟨hCourse, after, hSome⟩ :=
      Machine.leaves_region hStrict.1.1 hSound.poised hCloses hSound.clear hGoesOn
    exact leftBehind_of_sound hBefore hFlight hAfter hSome hCourse
  · cases hGoesOn.symm.trans hPoisoned

/-- So does an unwinding that leaves a region which waits for code that it has
called. -/
theorem leftBehind_of_passThrough {floor : Nat} {region : Protected ν} {phase : Phase}
    {payload : Payload} (hBefore : Represents before books)
    (hFlight : books.flight = none)
    (hSound : Sound books.shape floor True m [.protecting region.visit phase] flying
      parked)
    (hUnwinds : m.focus = .unwind payload)
    (hGoesOn : (m.passThrough region payload).poisoned = false) :
    LeftBehind before (m.passThrough region payload) := by
  have hFlow := hSound.flow
  rw [hUnwinds] at hFlow
  obtain ⟨flying, parked, hAfter⟩ | ⟨hPoisoned, -⟩ :=
    hSound.passThrough rfl hSound.clear hFlow
  · obtain ⟨hFocus, after, hSome⟩ := Machine.focus_passThrough hSound.clear hGoesOn
    exact leftBehind_of_sound hBefore hFlight hAfter hSome (.inr ⟨payload, hFocus⟩)
  · cases hGoesOn.symm.trans hPoisoned

end

/-- A protect statement is run by a step of the machine. -/
private theorem enters_of_protect {allowed : Machine ν → List Extent → Prop}
    {drops : Payload → Prop} {entering entered : Situation ν} {deed : Deed}
    {levels : Nat} {site : Site} {mode : Mode} {clauses : List (Clause ν)}
    {code : List (Stmt ν)} (h : Onward allowed drops entering deed entered)
    (hFocus : entering.machine.focus = .exec (.protect levels site mode clauses code)) :
    entering.machine.step.poisoned = false ∧
      entered.machine = entering.machine.step ∧
      entered.ledger = entering.machine.move.apply entering.ledger := by
  cases h with
  | step isAllowed goesOn isInside => exact ⟨goesOn, rfl, rfl⟩
  | destructs unwinds => cases hFocus.symm.trans unwinds
  | passes offers => cases hFocus.symm.trans offers
  | asks offers => cases hFocus.symm.trans offers
  | answers delivers => cases hFocus.symm.trans delivers
  | leaves unwinds => cases hFocus.symm.trans unwinds

/-- What leaves a region, with nothing else open in it, leaves behind what the region
found. -/
private theorem leftBehind_of_onward {before : Context} {books : Books} {floor : Nat}
    {now left : Situation ν} {deed : Deed} {above outer : List Extent} {visit : Visit}
    {phase : Phase} {flying : Bool} {parked : List Bool}
    (hBefore : Represents before books) (hFlight : books.flight = none)
    (hSound : Sound books.shape floor True now.machine
      (above ++ [.protecting visit phase]) flying parked)
    (h : Onward Machine.Strict (fun payload => payload ≠ .raise) now deed left)
    (hLedger : now.ledger = above ++ [.protecting visit phase] ++ outer)
    (hLeft : left.ledger.length = outer.length) : LeftBehind before left.machine := by
  have hNonempty : above ++ [.protecting visit phase] ≠ [] := by simp
  have stays (hSame : left.ledger = now.ledger) : LeftBehind before left.machine := by
    rw [hSame, hLedger, List.length_append, List.length_append] at hLeft
    simp only [List.length_singleton] at hLeft
    omega
  cases h with
  | @step m ledger inquiries isAllowed goesOn isInside =>
      obtain rfl : ledger = above ++ [.protecting visit phase] ++ outer := hLedger
      dsimp only at hLeft hSound ⊢
      rw [Move.apply_append _ _ hNonempty, List.length_append] at hLeft
      have hNil : m.move.apply (above ++ [.protecting visit phase]) = [] := by
        rw [← List.length_eq_zero_iff]
        omega
      obtain ⟨hCloses, extent, hSingle⟩ := Move.closes_of_apply_eq_nil hNil hNonempty
      obtain rfl : above = [] := by simpa using congrArg List.length hSingle
      exact leftBehind_of_step hBefore hFlight hSound (isAllowed.of_append hNonempty)
        hCloses goesOn
  | @leaves m ledger inquiry inquiries payload unwinds ends goesOn =>
      obtain rfl : ledger = above ++ [.protecting visit phase] ++ outer := hLedger
      dsimp only at hLeft hSound ⊢
      obtain rfl : above = [] := by
        rw [← List.length_eq_zero_iff]
        simp only [List.length_tail, List.length_append, List.length_singleton] at hLeft
        omega
      cases ends.isInTurn
      exact leftBehind_of_passThrough hBefore hFlight hSound unwinds goesOn
  | destructs unwinds isDropping body => exact stays rfl
  | passes offers isFirst isUnfit => exact stays rfl
  | asks offers code => exact stays rfl
  | answers delivers ends => exact stays rfl

/-- What comes next in a sound situation fails only for a reason that is excused. -/
private theorem excused_of_fails {now : Situation ν} {error : Error}
    {flying : Bool} {parked : List Bool} (h : now.Fails Machine.Strict error)
    (hSound : Sound {} 0 True now.machine now.ledger flying parked) :
    Excused error := by
  cases h with
  | step isAllowed isInside stops fails =>
      obtain ⟨_, _, hLands⟩ | ⟨-, hExcused⟩ :=
        lands_step hSound (.inl ⟨rfl, rfl⟩) isAllowed.1.1 isAllowed.1.2
          fun _ => isAllowed.2
      · cases stops.symm.trans hLands.clear
      · exact hExcused trivial error fails
  | leaves unwinds ends stops fails =>
      have hFlow := hSound.flow
      obtain ⟨rest, hLedger⟩ := List.head?_eq_some_iff.1 ends.isInTurn
      dsimp only at hSound hFlow
      rw [unwinds] at hFlow
      rw [hLedger] at hSound
      obtain ⟨_, _, hLands⟩ | ⟨-, hExcused⟩ :=
        hSound.passThrough rfl hSound.clear hFlow
      · cases stops.symm.trans hLands.clear
      · exact hExcused trivial error fails

/-- In a strict run the bookkeeping never fails because the stacks contradict a handle,
save for what the program brings about itself; and whatever a protected region does,
once it has been left the stacks hold what they held on entry, entry by entry, and
exactly one record more if it was left by an exception. Destructors may run anything
while a panic unwinds; while a raise unwinds, only guard bodies may. Code that a region
calls while it tries its clauses may do anything.

The first half excuses what a program can ask for and not get: room, a context, a kind,
an answer while a message is written. -/
theorem region_restores {process : Process} {auto : Bool} {limits : Option Limits}
    {body : List (Stmt ν)} {entering : Situation ν}
    (h : Consults Machine.Strict (fun payload => payload ≠ .raise)
      (.start process auto limits body) entering) :
    (∀ error, entering.Fails Machine.Strict error → Excused error) ∧
    ∀ (before : Context) (levels : Nat) (site : Site) (mode : Mode)
      (clauses : List (Clause ν)) (code : List (Stmt ν)),
      entering.machine.focus = .exec (.protect levels site mode clauses code) →
      entering.machine.context = some before →
      ∀ (enters leaves : Deed) (entered now left : Situation ν),
        Onward Machine.Strict (fun payload => payload ≠ .raise) entering enters
          entered →
        ConsultsAbove entering.ledger Machine.Strict (fun payload => payload ≠ .raise)
          entered now →
        entering.ledger.length < now.ledger.length →
        Onward Machine.Strict (fun payload => payload ≠ .raise) now leaves left →
        left.ledger.length = entering.ledger.length →
        LeftBehind before left.machine := by
  obtain ⟨flying, parked, hSound⟩ := sound_of_strict h
  refine ⟨fun error hFails => excused_of_fails hFails hSound, ?_⟩
  intro before levels site mode clauses code hFocus hContext enters leaves entered now
    left hEnters hInside hOpen hLeaves hLeft
  obtain rfl := hSound.landed (by rw [hFocus]; rfl)
  obtain ⟨books, hKeeps⟩ := hSound.keeps hContext
  obtain ⟨hGoesOn, hMachine, hLedger⟩ := enters_of_protect hEnters hFocus
  obtain ⟨visit, hMove⟩ := Machine.move_of_protect hFocus hGoesOn
  have hStart := sound_entered hSound hKeeps hFocus hContext hGoesOn
  rw [hMove, ← hMachine] at hStart
  rw [hMove] at hLedger
  obtain ⟨inner, hNow, hInner, flying, parked, hInnerSound⟩ :=
    sound_inside hInside hLedger hStart
  obtain rfl | ⟨above, innermost, phase, rfl⟩ := hInner
  · rw [hNow] at hOpen
    exact absurd hOpen (by simp)
  · exact leftBehind_of_onward hKeeps.represents hKeeps.landed hInnerSound hLeaves hNow
      hLeft

/-- The law speaks of the region of `catching`, from its entry to the step that leaves
it. -/
theorem region_restores_catching :
    ∃ (before : Context) (m : Machine Nat),
      (∃ region outcome, m.focus = .leave region outcome) ∧
      LeftBehind before m.step := by
  let start : Machine Nat := .start {} true none catching
  let before : Context := .new {} ({} : Config).limits
  have hEntering :
      Reaches Machine.Strict start start.opened start.step
      (start.move.apply start.opened) :=
    .step .start (by decide +kernel) (by decide +kernel)
  obtain ⟨m, ledger, hInside, hTest⟩ := Reaches.of_follow 18
    (fun m ledger => (match m.focus with
      | .leave _ _ => true
      | _ =>
          false) && decide (m.Strict ledger) && decide (1 < ledger.length) &&
            !m.step.poisoned &&
      (m.move.apply ledger).length == 1)
    (show (follow (fun m ledger => m.Strict ledger ∧ 1 < ledger.length)
      18 start.step.step (start.step.move.apply [.thread])).any _ = true by
      decide +kernel)
  simp only [Bool.and_eq_true, decide_eq_true_eq, Bool.not_eq_true', beq_iff_eq]
    at hTest
  obtain ⟨⟨⟨⟨hLeave, hStrict⟩, hOpen⟩, hGoesOn⟩, hLeft⟩ := hTest
  have hFocus : ∃ region outcome, m.focus = .leave region outcome := by
    split at hLeave
    · next region outcome hFocus => exact ⟨region, outcome, hFocus⟩
    · cases hLeave
  exact ⟨before, m, hFocus,
    (region_restores hEntering.unfolds.consults).2 before _ _ _ _ _ rfl rfl _ _ _ _ _
      (.step (by decide +kernel) (by decide +kernel) fun _ hNone => by cases hNone)
      hInside.above hOpen (.step hStrict hGoesOn fun _ hNone => by cases hNone) hLeft⟩

/-! ## What the conditions are for -/

/-- A run that is followed to a step that terminates the thread. -/
theorem Reaches.fails_of_follow {allowed : Machine ν → List Extent → Prop}
    [∀ m ledger, Decidable (allowed m ledger)] {start : Machine ν}
    {opened : List Extent} {error : Error} (count : Nat)
    (h : (Unwinding.follow allowed count start opened).any (fun state =>
      decide (allowed state.1 state.2) && state.1.step.poisoned &&
        decide (state.1.step.failure? = some error)) = true) :
    ∃ m ledger, Reaches allowed start opened m ledger ∧ allowed m ledger ∧
      m.step.poisoned = true ∧
      m.step.failure? = some error := by
  obtain ⟨m, ledger, hReaches, hTest⟩ := Reaches.of_follow count
    (fun m ledger => decide (allowed m ledger) && m.step.poisoned &&
      decide (m.step.failure? = some error)) h
  simp only [Bool.and_eq_true, decide_eq_true_eq] at hTest
  exact ⟨m, ledger, hReaches, hTest.1.1, hTest.1.2, hTest.2⟩

/-- The clauses of a region that catches what the programs below raise. -/
def catchAll : List (Clause Nat) :=
  [.mk (.direct .illegalEscape) "e" []]

/-- A message is written by code that enters a region while the raise is being
prepared. -/
def reentering : List (Stmt Nat) :=
  [.protect 1 ⟨"main", 1, "main"⟩ .run catchAll
    [.raise (.direct .illegalEscape) ⟨"main", 2, "main"⟩
      [.run [.protect 1 ⟨"main", 3, "show"⟩ .run [] []]]]]

/-- The bookkeeping of a strict run may fail as corrupted where no region was abandoned
and no guard body failed: code that writes a message must not use the runtime. So it may
once the destructor of a value that a raise drops has raised and caught, which loses the
exception that is on its way.

In the second run the destructor itself is in order, and its region is left normally.
What fails is the region further out, at which the first raise arrives without a
record. -/
theorem reentering_and_dropping_fail :
    (∃ now : Situation Nat,
      Consults Machine.Strict (fun payload => payload ≠ .raise)
        (.start {} true none reentering) now ∧
      now.Fails Machine.Strict (.corrupted .reentered)) ∧
    ∃ now : Situation Nat,
      Consults Machine.Strict (fun _ => True) (.start {} true none caughtAtOnce) now ∧
      now.Fails Machine.Strict (.corrupted (.noRecord ⟨"main", 1, "main"⟩)) := by
  constructor
  · obtain ⟨m, ledger, hReaches, hStrict, hStops, hFails⟩ :
        ∃ m ledger, Reaches Machine.Strict (.start {} true none reentering)
          (Machine.start {} true none reentering).opened m ledger ∧ m.Strict ledger ∧
          m.step.poisoned = true ∧
          m.step.failure? = some (.corrupted .reentered) :=
      Reaches.fails_of_follow 6 (by decide +kernel)
    exact ⟨_, hReaches.unfolds.consults,
      .step hStrict (fun _ hNone => by cases hNone) hStops hFails⟩
  · obtain ⟨m, ledger, hUnfolds, hTest⟩ :=
      Unfolds.of_follow (fun _ => True) .raise trivial 5 19
      caughtAtOnce
      (fun m ledger => decide (m.Strict ledger) && m.step.poisoned &&
        decide (m.step.failure? = some (.corrupted (.noRecord ⟨"main", 1, "main"⟩))))
      (show (follow Machine.Strict 5 (.start {} true none caughtAtOnce)
        (Machine.start {} true none caughtAtOnce).opened).any _ = true by
          decide +kernel)
    simp only [Bool.and_eq_true, decide_eq_true_eq] at hTest
    exact ⟨_, hUnfolds.consults,
      .step hTest.1.1 (fun _ hNone => by cases hNone) hTest.1.2 hTest.2⟩

/-- While a raise unwinds, a guard body enters a protected region, opens an explicit one
in it, and raises. -/
def staleRegion : List (Stmt Nat) :=
  [.protect 1 ⟨"main", 1, "main"⟩ .run catchAll
    [.acquire "guard" (.guards ⟨"main", 2, "main"⟩) 1,
      .guard "guard" .always
        [.protect 1 ⟨"main", 3, "undo"⟩ .run catchAll
          [.acquire "inner" (.region ⟨"main", 4, "undo"⟩) 1,
            .raise (.direct .illegalEscape) ⟨"main", 5, "undo"⟩ []]],
      .raise (.direct .illegalEscape) ⟨"main", 6, "main"⟩ []]]

end Unwinding
