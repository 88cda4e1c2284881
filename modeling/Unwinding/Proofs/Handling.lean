import Unwinding.Proofs.Statements

/-!
# Steps of handles

What there is to show of the steps that open a handle, give it up or drop it, and of
those that run guard bodies. The context can be closed only where no region or call is
open. A region that is abandoned is noted for the innermost body, which has to report
it.

## Main results

* `Machine.reads_acquire`, `Machine.reads_register`, `Machine.reads_release` —
  statements with handles.
* `Machine.reads_drop`, `Machine.reads_leaveScope` — handles that are dropped.
-/

namespace Unwinding

open Plain

variable {ν : Type}

variable {m : Machine ν} {ledger : List Extent} {pile : Pile} {known : Lineage}
    {clock : Nat}
  {final : Except Thrown (Option ν) × Store ν}

/-! ## The context -/

/-- To open the context of a thread ends in one of three ways: memory is exceeded, the
thread has one already, or it gets one. -/
theorem openThread_cases (m : Machine ν) (limits : Option Limits) :
    ((m.config.getD {}).fitsMemory = false ∧
        m.openThread limits =
          (.overflowed, { m with config := some (m.config.getD {}) })) ∨
      ((m.config.getD {}).fitsMemory = true ∧ (m.inUse || m.context.isSome) = true ∧
        m.openThread limits =
          (.refused .contextActive, { m with config := some (m.config.getD {}) })) ∨
      ((m.config.getD {}).fitsMemory = true ∧ (m.inUse || m.context.isSome) = false ∧
        ∃ context, context.entries = .empty ∧ m.openThread limits = (.opened, { m with
          config := some (m.config.getD {})
          context := some context
          poisoned := false
          events := .notice .contextCreated :: m.events })) := by
  have hInstalled :
      m.installed = (m.config.getD {}, { m with config := some (m.config.getD {}) }) :=
    by
    obtain ⟨⟨registry, config, printed⟩, context, inUse, poisoned, unwindings, bindings,
        events, control, focus⟩ := m
    cases config <;> rfl
  have hInitialized :
      ({ m with config := some (m.config.getD {}) } : Machine ν).isInitialized =
      (m.inUse || m.context.isSome) := rfl
  unfold Machine.openThread
  rw [hInstalled]
  dsimp only
  rw [hInitialized]
  cases (m.config.getD {}).fitsMemory with
  | false => exact .inl ⟨rfl, rfl⟩
  | true =>
      cases (m.inUse || m.context.isSome) with
      | true => exact .inr (.inl ⟨rfl, rfl, rfl⟩)
      | false => exact .inr (.inr ⟨rfl, rfl, _, rfl, rfl⟩)

private theorem closeThread_open {context : Context} (hUse : m.inUse = false)
    (hContext : m.context = some context) :
    ∃ outcome notice,
      m.closeThread =
      (outcome, { m with context := none, events := .notice notice :: m.events }) := by
  unfold Machine.closeThread
  rw [if_neg (by simp [hUse]), hContext]
  dsimp only
  split
  · exact ⟨_, _, rfl⟩
  · exact ⟨_, _, rfl⟩

private theorem dropThread_open {context : Context} (hClear : m.poisoned = false)
    (hUse : m.inUse = false) (hContext : m.context = some context) :
    ∃ events, m.dropThread = { m with context := none, events } := by
  obtain ⟨outcome, notice, hCloses⟩ := closeThread_open hUse hContext
  unfold Machine.dropThread
  rw [if_neg (by simp [hClear]), hCloses]
  cases outcome with
  | ok closed => exact ⟨_, rfl⟩
  | error error => exact ⟨_, rfl⟩

/-- What there is to show where the context is closed: nothing is held up, and no region
is open that could have something to report. -/
theorem Composed.reads_closing (h : Composed m ledger pile known)
    (hPlainly : m.Plainly ledger) (hGoesOn : m.step.poisoned = false)
    (hDeed : m.deed = .closes) (hHead : ledger.head? = some .thread) {after : Machine ν}
    (hStep : m.step = after) (hContext : after.context = none)
    (hControl : bodies after.control = bodies m.control) {log : List (Sighting ν)}
    (hLog : after.sights = log) {point : Point} {travels : List (Option Raised)}
    {code : Plain ν (point.Answer ν)}
    {follows : Except Thrown (point.Answer ν) → Plain ν (Option ν)}
    (means : after.Means clock [none] point travels code)
    (waits : Waits m.pend point clock travels after.control follows)
    (comes : code.meet follows (after.readingAs m.path m.reading.escape log) = final) :
    m.step.Reads clock final := by
  obtain ⟨hPath, hBodies, flight, hTravels⟩ := h.bare hHead
  have hNone : after.entries? = none := by
    rw [Machine.entries?, hContext]
    rfl
  have hAfter : after.path = m.path := by
    rw [hPath, Machine.path, hNone]
    rfl
  refine h.reads_quiet hPlainly hGoesOn hDeed hStep (fun id hMem => ?_) hAfter ?_
    (fun hLands => hLands.elim) hLog hTravels means
    waits comes
  · rw [hControl, hBodies] at hMem
    cases hMem
  · rw [hControl]
    rfl

/-! ## Statements with handles -/

namespace Machine

section

variable {follows : Except Thrown (Option (Option ν)) → Plain ν (Option ν)}

private theorem own_eq {word : String} {rest : List (Stmt ν)}
    {handles : List (String × Handle ν)} {value : Option ν}
    {control : List (Resumption ν)}
    (h : m.control = .block word rest handles value :: control) (name : String)
    (handle : Handle ν) :
    m.own name handle =
      { m with control := .block word rest ((name, handle) :: handles) value :: control
      } := by
  simp only [Machine.own, h]

private theorem reads_acquireThread (h : Composed m ledger pile known)
    (hPlainly : m.Plainly ledger) (hGoesOn : m.step.poisoned = false) {name : String}
    {limits : Option Limits} {times : Nat}
    (hFocus : m.focus = .exec (.acquire name (.thread limits) (times + 1)))
    (waits : Waits m.pend .statement clock m.travels m.control follows)
    (comes : (Plain.acquire name (.thread limits) (times + 1)).meet follows m.reading =
      final) :
    m.step.Reads clock final := by
  change ((openContext.andThen (ownThread name)).andThen
    fun _ => Plain.acquire name (.thread limits) times).meet follows
    m.reading = final at comes
  unfold andThen meet at comes
  obtain ⟨outer, hTravels⟩ := waits.valued.lands
  obtain ⟨hFits, hOpen⟩ | ⟨hFits, hThere, hOpen⟩ | ⟨hFits, hNot, context, -, hOpen⟩ :=
    openThread_cases m limits
  · have hStep : m.step = { m with config := some (m.config.getD {})
      }.unwind overflow := by
      simp only [step, hFocus, exec, Machine.acquire, hOpen]
    have hOpened := openContext_overflowed m.reading hFits
    rw [hOpened] at comes
    rw [hTravels] at waits
    exact .of_same hStep rfl rfl rfl hTravels (.unwind rfl .panic) waits.reached comes
  · have hStep : m.step =
        ({ m with config := some (m.config.getD {})
        }.emit (.openFailed .contextActive)).goto
        (.exec (.acquire name (.thread limits) times)) := by
      simp only [step, hFocus, exec, Machine.acquire, hOpen]
    have hOpened := openContext_refused m.reading hFits hThere
    rw [hOpened] at comes
    exact .of_same hStep rfl rfl rfl rfl (.exec rfl) waits comes
  · have hDeed : m.deed = .opens := by simp only [deed, hFocus, deedOf, hOpen]
    have hOpened := openContext_opened m.reading hFits hNot
    rw [hOpened] at comes
    obtain ⟨hIdle, hClosed⟩ := Bool.or_eq_false_iff.1 hNot
    have hNone : m.entries? = none := by
      rw [entries?, Option.isSome_eq_false_iff.1 hClosed |> Option.isNone_iff_eq_none.1]
      rfl
    have hPath : m.path = [] := by rw [path, hNone]; rfl
    have hTravels : m.travels = [none] := by rw [travels, hNone]
    rw [hTravels] at waits
    obtain ⟨word, rest, handles, value, below, hControl, hOwns⟩ := waits.owns
    have hStep : m.step = { m with
        config := some (m.config.getD {})
        context := some context
        poisoned := false
        events := .notice .contextCreated :: m.events
        control := .block word rest ((name, .thread) :: handles) value :: below
        focus := .exec (.acquire name (.thread limits) times) } := by
      simp only [step, hFocus, exec, Machine.acquire, hOpen, own, hControl, goto]
    rw [m.reading_of_control hControl] at comes
    refine h.reads_tame hPlainly hGoesOn hDeed hStep
      (returning?_of_focus (by simp [hFocus])) trivial rfl
      (fun hLands => hLands.elim) rfl hTravels (.exec rfl) (hOwns name .thread trivial)
        ?_
    rw [show Deed.opens.walks m.path = m.path from hPath.symm]
    exact comes

private theorem reads_acquireRegion (h : Composed m ledger pile known)
    (hPlainly : m.Plainly ledger) (hGoesOn : m.step.poisoned = false) {name : String}
    {site : Site} {times : Nat}
    (hFocus : m.focus = .exec (.acquire name (.region site) (times + 1)))
    (waits : Waits m.pend .statement clock m.travels m.control follows)
    (comes : (Plain.acquire name (.region site) (times + 1)).meet follows m.reading =
      final) :
    m.step.Reads clock final := by
  have hStep : m.step = m.perform (Context.enter site true) fun m visit =>
      (m.own name (.region visit m.isPanicking)).goto
        (.exec (.acquire name (.region site) times)) := by
    simp only [step, hFocus, exec, Machine.acquire]
  obtain ⟨context, visit, left, hContext, hOk, hAfter⟩ := performed hStep hGoesOn
  obtain ⟨hVisit, -⟩ := effect_enter.of_ok hOk
  have hDeed : m.deed = .enters visit := by
    simp only [deed, hFocus, deedOf, answering_ok hContext hOk]
  subst hVisit
  obtain ⟨word, rest, handles, value, below, hControl, hOwns⟩ := waits.owns
  have hStored : (m.store left).control = m.control := rfl
  rw [own_eq (hStored.trans hControl)] at hAfter
  rw [m.reading_open hContext, m.reading_of_control hControl] at comes
  exact h.reads_tame hPlainly hGoesOn hDeed hAfter
    (returning?_of_focus (by simp [hFocus])) trivial rfl
    (fun hLands => hLands.elim) (sights_store m left) rfl (.exec rfl)
      (hOwns name (.region _ _) trivial) comes

/-- A traced call puts its site on the path. Its deed does not tell that site, so the
path is read off the operation itself. -/
private theorem reads_acquireCall (h : Composed m ledger pile known)
    (hPlainly : m.Plainly ledger) (hGoesOn : m.step.poisoned = false) {name : String}
    {site : Site} {times : Nat}
    (hFocus : m.focus = .exec (.acquire name (.call site) (times + 1)))
    (waits : Waits m.pend .statement clock m.travels m.control follows)
    (comes : (Plain.acquire name (.call site) (times + 1)).meet follows m.reading =
      final) :
    m.step.Reads clock final := by
  have hStep : m.step = m.perform (Context.enterCall site) fun m entry =>
      (m.own name (.call entry m.isPanicking)).goto
        (.exec (.acquire name (.call site) times)) := by
    simp only [step, hFocus, exec, Machine.acquire]
  obtain ⟨context, entry, left, hContext, hOk, hAfter⟩ := performed hStep hGoesOn
  obtain ⟨-, hLeft⟩ := effect_enterCall.of_ok hOk
  have hDeed : m.deed = .entersCall entry := by
    simp only [deed, hFocus, deedOf, answering_ok hContext hOk]
  have hQuiet (id : Nat) : m.news? id ledger = none := by
    simp only [news?, returning?_of_focus (m := m) (by simp [hFocus]), hDeed]
  have hPath : left.entries.frames.map Frame.site = site :: m.path := by
    rw [hLeft, path_of_entries (entries?_some hContext)]
    rfl
  obtain ⟨word, rest, handles, value, below, hControl, hOwns⟩ := waits.owns
  have hStored : (m.store left).control = m.control := rfl
  rw [own_eq (hStored.trans hControl)] at hAfter
  rw [m.reading_open hContext, m.reading_of_control hControl] at comes
  exact h.reads_quiet hPlainly hGoesOn hDeed hAfter (fun id _ => hQuiet id) hPath rfl
    (fun hLands => hLands.elim)
    (sights_store m left) rfl (.exec rfl) (hOwns name (.call _ _) trivial) comes

private theorem reads_acquireGuards {name : String} {site : Site} {times : Nat}
    (hFocus : m.focus = .exec (.acquire name (.guards site) (times + 1)))
    (waits : Waits m.pend .statement clock m.travels m.control follows)
    (comes : (Plain.acquire name (.guards site) (times + 1)).meet follows m.reading =
      final) :
    m.step.Reads clock final := by
  obtain ⟨word, rest, handles, value, below, hControl, hOwns⟩ := waits.owns
  have hStep : m.step = { m with
      control :=
        .block word rest ((name, .guards (.empty site m.isPanicking)) :: handles)
        value :: below
      focus := .exec (.acquire name (.guards site) times) } := by
    simp only [step, hFocus, exec, Machine.acquire, own, hControl, goto]
  rw [m.reading_of_control hControl] at comes
  exact .of_same hStep rfl rfl rfl rfl (.exec rfl) (hOwns name (.guards _) fun _ => rfl)
    comes

/-- A handle is acquired so many times over. Each is another handle of the innermost
block, on both sides. -/
theorem reads_acquire (h : Composed m ledger pile known) (hPlainly : m.Plainly ledger)
    (hGoesOn : m.step.poisoned = false) {name : String} {opening : Opening}
    {times : Nat} (hFocus : m.focus = .exec (.acquire name opening times))
    (waits : Waits m.pend .statement clock m.travels m.control follows)
    (comes : (Plain.acquire name opening times).meet follows m.reading = final) :
    m.step.Reads clock final := by
  cases times with
  | zero =>
      have hStep : m.step = m.goto (.complete none) := by simp only [step, hFocus, exec]
      exact reads_done hStep waits comes
  | succ times =>
      cases opening with
      | thread limits => exact reads_acquireThread h hPlainly hGoesOn hFocus waits comes
      | region site => exact reads_acquireRegion h hPlainly hGoesOn hFocus waits comes
      | call site => exact reads_acquireCall h hPlainly hGoesOn hFocus waits comes
      | guards site => exact reads_acquireGuards hFocus waits comes

private theorem isMarked_register (scope : Scope ν) (mark : Nat) (flavor : Flavor)
    (body : List (Stmt ν)) :
    (Handle.guards (scope.register mark flavor body)).IsMarked :=
  fun hNone => nomatch hNone

/-- A body is registered: the scope that holds it goes where the scope was, under the
same name and in the same block. -/
theorem reads_register (h : Composed m ledger pile known) (hPlainly : m.Plainly ledger)
    (hGoesOn : m.step.poisoned = false) {name : String} {flavor : Flavor}
    {body : List (Stmt ν)} (hFocus : m.focus = .exec (.guard name flavor body))
    (waits : Waits m.pend .statement clock m.travels m.control follows)
    (comes : (register name flavor body).meet follows m.reading = final) :
    m.step.Reads clock final := by
  change (registerIn name flavor body (Held.find? name (blocksOf m.control))).meet
    follows m.reading = final at comes
  rw [find?_blocksOf] at comes
  have hStep : m.step = m.registerGuard name flavor body := by
    simp only [step, hFocus, exec]
  have nothing (hNone : m.step = m.goto (.complete none))
    (comes : (give (.ok none)).meet follows m.reading = final) :
      m.step.Reads clock final := reads_done hNone waits comes
  unfold Machine.registerGuard at hStep
  cases hFound : Handle.find? name m.control with
  | none =>
      rw [hFound] at hStep comes
      exact nothing hStep comes
  | some handle =>
      rw [hFound] at hStep comes
      cases handle with
      | guards scope =>
          have hBlocks (mark : Nat) :
            blocksOf
              (Handle.put name (.guards (scope.register mark flavor body)) m.control) =
              Held.put name (.guards ((flavor, body) :: scope.bodies))
                (blocksOf m.control) := blocksOf_put _ _ _
          have hShrinks (mark : Nat) :=
            shrinks_put (isMarked_register scope mark flavor body) name m.control
          have hEscape (mark : Nat) :=
            congrArg (fun ids => ids.head?.bind m.pend) (bodies_shrinks (hShrinks mark))
          change (give (.ok none)).meet follows { m.reading with
            blocks :=
              Held.put name (.guards ((flavor, body) :: scope.bodies))
              (blocksOf m.control)
            log := .registered (scope.bodies.length + 1) :: m.sights } = final at comes
          rw [← scope.count_eq] at comes
          dsimp only at hStep
          cases hMark : scope.mark with
          | some mark =>
              rw [hMark] at hStep
              rw [← hBlocks mark] at comes
              exact .of_same hStep rfl rfl (hEscape mark) rfl (.complete rfl)
                (waits.shrink (hShrinks mark)) comes
          | none =>
              rw [hMark] at hStep
              obtain ⟨context, mark, left, hContext, hOk, hAfter⟩ :=
                performed hStep hGoesOn
              have hDeed : m.deed = .opensScope mark := by
                simp only [deed, hFocus, deedOf, hFound, hMark, Option.isNone_none,
                  if_true, answering_ok hContext hOk]
              have hLog : ((m.store left).emit (.registered (scope.count + 1))).sights =
                  .registered (scope.count + 1) :: m.sights :=
                congrArg (List.cons _) (sights_store m left)
              rw [← hBlocks mark, m.reading_open hContext] at comes
              exact h.reads_tame hPlainly hGoesOn hDeed hAfter
                (returning?_of_focus (by simp [hFocus])) trivial
                (hEscape mark) (fun hLands => hLands.elim) hLog rfl (.complete rfl)
                  (waits.shrink (hShrinks mark)) comes
      | _ => exact nothing hStep comes

private theorem reads_shutdown (h : Composed m ledger pile known)
    (hPlainly : m.Plainly ledger) (hGoesOn : m.step.poisoned = false) {name : String}
    {control : List (Resumption ν)} (hFocus : m.focus = .exec (.release name .shutdown))
    (hTake : Handle.take? name m.control = some (.thread, control))
    (hEscape : bodies control = bodies m.control)
    (waits : Waits m.pend .statement clock m.travels control follows)
    (comes :
      (closeContext.andThen fun _ => (see .asked).andThen fun _ => give (.ok none)).meet
      follows
      { m.reading with blocks := blocksOf control } = final) :
        m.step.Reads clock final := by
  have hStep : m.step = (({ m with control } : Machine ν).closeThread.2).answer
      (.shutdown ({ m with control } : Machine ν).closeThread.1) := by
    simp only [step, hFocus, exec, Machine.release, hTake]
  change (give (.ok none)).meet follows { m.reading with
    blocks := blocksOf control
    opened := m.reading.writing && m.reading.opened
    log := .asked :: m.sights } = final at comes
  cases hUse : m.inUse with
  | true =>
      have hCloses : ({ m with control } : Machine ν).closeThread =
          (.error .contextMissing, { m with control }) := if_pos hUse
      rw [hCloses] at hStep
      rw [show m.reading.writing = true from hUse, Bool.true_and] at comes
      exact .of_same hStep rfl rfl (congrArg (fun ids => ids.head?.bind m.pend) hEscape)
        rfl (.complete rfl) waits comes
  | false =>
      have hHead : ledger.head? = some .thread :=
        hPlainly.orderly.1.closing .thread (by simp only [closing?, hFocus, hTake])
      have hDeed : m.deed = .closes := by
        simp only [deed, hFocus, deedOf, hTake, Machine.closing, hUse,
          Bool.false_eq_true, if_false]
      cases hContext : m.context with
      | none =>
          rw [h.upright.stands.closed hContext] at hHead
          cases hHead
      | some context =>
          obtain ⟨outcome, notice, hCloses⟩ :=
            closeThread_open (m := { m with control }) hUse hContext
          rw [hCloses] at hStep
          rw [show m.reading.writing = false from hUse, Bool.false_and] at comes
          obtain ⟨-, -, flight, hTravels⟩ := h.bare hHead
          obtain ⟨outer, hLands⟩ := waits.valued.lands
          obtain ⟨rfl, rfl⟩ := List.cons.inj (hTravels.symm.trans hLands)
          rw [hTravels] at waits
          exact h.reads_closing hPlainly hGoesOn hDeed hHead hStep rfl hEscape rfl
            (.complete rfl) waits comes

/-- A handle is given up. Either the statement itself drops it, or it leaves the region
and is told so, or nothing is run. -/
theorem reads_release (h : Composed m ledger pile known) (hPlainly : m.Plainly ledger)
    (hGoesOn : m.step.poisoned = false) {name : String} {how : Closing}
    (hFocus : m.focus = .exec (.release name how))
    (waits : Waits m.pend .statement clock m.travels m.control follows)
    (comes : (Plain.release (runAt clock) name how).meet follows m.reading = final) :
    m.step.Reads clock final := by
  change (releaseFound (runAt clock) how (Held.take? name (blocksOf m.control))).meet
    follows m.reading = final at comes
  rw [take?_blocksOf] at comes
  have hStep : m.step = m.release name how := by simp only [step, hFocus, exec]
  unfold Machine.release at hStep
  cases hTake : Handle.take? name m.control with
  | none =>
      rw [hTake] at hStep comes
      exact reads_done hStep waits comes
  | some found =>
      obtain ⟨handle, control⟩ := found
      rw [hTake] at hStep comes
      dsimp only at hStep
      obtain ⟨hShrinks, hHolds⟩ := shrinks_of_take? hTake
      have isMarked := waits.marked hHolds
      have waits := waits.shrink hShrinks
      have hEscape :=
        congrArg (fun ids => ids.head?.bind m.pend) (bodies_shrinks hShrinks)
      change (giveUp (runAt clock) how handle.held).meet follows
        { m.reading with blocks := blocksOf control } = final at comes
      obtain ⟨outer, hTravels⟩ := waits.valued.lands
      have drops
        (hStep : m.step = (({ m with control } : Machine ν).push .releasing).goto
          (.drop handle))
          (comes :
            ((Plain.drop (runAt clock) false handle.held).andThen
            fun _ => give (.ok none)).meet follows
            { m.reading with blocks := blocksOf control } = final) :
            m.step.Reads clock final := by
        rw [hTravels] at waits
        refine .of_same hStep rfl rfl hEscape hTravels (.drop rfl isMarked)
          (.releasing waits) ?_
        exact (congrFun (meet_give _ (fun _ => none) follows) _).symm.trans comes
      cases how with
      | drop => exact drops hStep comes
      | forget => exact .of_same hStep rfl rfl hEscape rfl (.complete rfl) waits comes
      | leave =>
          cases handle with
          | region visit inUnwinding =>
              obtain ⟨context, answer, left, hContext, hOk, hAfter⟩ :=
                performed hStep hGoesOn
              have hDeed : m.deed = .leaves visit false .nothing := by
                simp only [deed, hFocus, deedOf, hTake]
              rw [m.reading_open hContext] at comes
              exact h.reads_tame hPlainly hGoesOn hDeed hAfter
                (returning?_of_focus (by simp [hFocus])) trivial
                hEscape (fun _ => rfl) (sights_store _ left) hTravels (.complete rfl)
                  (hTravels ▸ waits) comes
          | _ => exact drops hStep comes
      | shutdown =>
          cases handle with
          | thread =>
              exact reads_shutdown h hPlainly hGoesOn hFocus hTake
                (bodies_shrinks hShrinks) waits comes
          | _ => exact drops hStep comes

end

/-! ## Handles that are dropped -/

section

variable {follows : Except Thrown Unit → Plain ν (Option ν)}

private theorem reads_dropThread (h : Composed m ledger pile known)
    (hPlainly : m.Plainly ledger) (hGoesOn : m.step.poisoned = false)
    (hFocus : m.focus = .drop .thread)
    (waits : Waits m.pend .drop clock m.travels m.control follows)
    (comes : closeContext.meet follows m.reading = final) :
    m.step.Reads clock final := by
  have hClear := h.upright.stands.clear
  have hStep : m.step = m.dropThread.goto .next := by
    simp only [step, hFocus, Machine.drop]
  change (give (.ok ())).meet follows
    { m.reading with opened := m.reading.writing && m.reading.opened } = final at comes
  cases hUse : m.inUse with
  | true =>
      have hDrops : m.dropThread = m.note (.closeFailed .contextMissing) := by
        unfold Machine.dropThread
        rw [if_neg (by simp [hClear]),
          show m.closeThread = (.error .contextMissing, m) from if_pos hUse]
      rw [hDrops] at hStep
      rw [show m.reading.writing = true from hUse, Bool.true_and] at comes
      exact .of_same hStep rfl rfl rfl rfl (.next rfl) waits comes
  | false =>
      have hHead : ledger.head? = some .thread :=
        hPlainly.orderly.1.closing .thread
        (by simp only [closing?, hFocus, Handle.extent?])
      have hDeed :
          m.deed = .closes := by
          simp only [deed, hFocus, Machine.closing, hUse, Bool.false_eq_true, if_false]
      cases hContext : m.context with
      | none =>
          rw [h.upright.stands.closed hContext] at hHead
          cases hHead
      | some context =>
          have hLog := m.sights_dropThread
          obtain ⟨events, hDrops⟩ := dropThread_open hClear hUse hContext
          rw [hDrops] at hStep hLog
          rw [show m.reading.writing = false from hUse, Bool.false_and] at comes
          obtain ⟨-, -, flight, hTravels⟩ := h.bare hHead
          rw [hTravels] at waits
          exact h.reads_closing hPlainly hGoesOn hDeed hHead hStep rfl rfl hLog
            (.next rfl) waits.landed comes

/-- An explicit region is abandoned: the innermost body has to report it. There is one,
or the step would have failed. -/
theorem reads_abandon (h : Composed m ledger pile known) (hPlainly : m.Plainly ledger)
    (hGoesOn : m.step.poisoned = false) {visit : Visit} {inUnwinding : Bool}
    (hFocus : m.focus = .drop (.region visit inUnwinding))
    (hExit : (m.isPanicking && !inUnwinding) = false)
    (hSettled : m.dropsByUnwinding = false)
    (waits : Waits m.pend .drop clock m.travels m.control follows)
    (comes : (Plain.drop (runAt clock) false (.region visit.site)).meet follows
      m.reading = final) :
    m.step.Reads clock final := by
  have hClear := h.upright.stands.clear
  have hDeed : m.deed = .abandons visit := by
    simp only [deed, hFocus, hExit, Bool.false_eq_true, if_false]
  have hStep : m.step = m.perform (Context.abandon visit) fun m _ => m.goto .next := by
    simp only [step, hFocus, Machine.drop, hClear, hExit, Bool.false_eq_true, if_false]
  obtain ⟨context, answer, left, hContext, hOk, hAfter⟩ := performed hStep hGoesOn
  have hHead :=
    hPlainly.orderly.1.closing (.region visit)
    (by simp only [closing?, hFocus, Handle.extent?])
  obtain ⟨rest, rfl⟩ := List.head?_eq_some_iff.1 hHead
  have hStepped : m.step.context = some { left with journal := [] } := by
    rw [hAfter]
    rfl
  obtain ⟨owner, hOwner⟩ : ∃ owner, (bodies m.control).head? = some owner := by
    have hSettles := (Machine.settles_step hClear hContext hStepped hGoesOn).1
    rw [hDeed] at hSettles
    obtain ⟨owner, hOwner, -⟩ := hSettles
    have hLively := h.settled.lively.step hPlainly.orderly.1 hGoesOn
    have hRest := reporterOf_marks hLively.stands.sorted
    rw [← hLively.marked _ hStepped, hOwner, (Machine.did_step hClear hGoesOn).move,
      hDeed] at hRest
    exact ⟨owner, (h.settled.lively.reporting (by rw [hFocus]; rfl)).symm.trans
      hRest.symm⟩
  have hReporting : reporting? (.region visit :: rest) = some owner :=
    (h.settled.lively.reporting (by rw [hFocus]; rfl)).trans hOwner
  have hNews (id : Nat) : m.news? id (.region visit :: rest) = if owner = id then
      some (.abandons visit.site) else none := by
    rw [news?, returning?_of_focus (by simp [hFocus]), hDeed, hReporting]
    simp only [Option.some.injEq]
  obtain ⟨others, hBodies⟩ := List.head?_eq_some_iff.1 hOwner
  have hNodup := h.settled.lively.bodies_nodup
  rw [hBodies] at hNodup
  have hControl : m.step.control = m.control := by
    rw [hAfter]
    rfl
  have hPend (id : Nat) (hMem : id ∈ bodies m.control) :
      m.step.pend id = if owner = id then (m.pend id).or (some visit.site) else
        m.pend id := by
    rw [h.pend_step hPlainly hGoesOn (hControl ▸ hMem), hNews]
    split <;> rfl
  have hEscape : (bodies m.control).head?.bind m.step.pend =
      m.reading.escape.or (some visit.site) := by
    rw [show m.reading.escape = (bodies m.control).head?.bind m.pend from rfl, hOwner,
      Option.bind_some, Option.bind_some,
      hPend owner (by rw [hBodies]; exact List.mem_cons_self), if_pos rfl]
  have hKept : Waits m.step.pend .drop clock m.travels m.control follows := by
    refine waits.congr fun id hMem => ?_
    rw [hBodies] at hMem
    rw [hPend id (by rw [hBodies]; exact List.mem_cons_of_mem _ hMem),
      if_neg
        (show ¬ owner = id from fun hSame => (List.nodup_cons.1 hNodup).1
        (hSame ▸ hMem))]
  obtain ⟨outer, hTravels⟩ := waits.settled fun payload below hControl => by
    rw [dropsByUnwinding, hControl] at hSettled
    cases hSettled
  have hPath := path_step h.upright hPlainly.orderly.1 hGoesOn fun entry hCall => by
    rw [hDeed] at hCall
    cases hCall
  rw [hDeed, hAfter] at hPath
  rw [hAfter] at hEscape hKept
  rw [m.reading_open hContext] at comes
  exact h.reads hPlainly hGoesOn hDeed hAfter hPath hEscape
    (fun _ => by rw [hTravels]; rfl) (sights_store m left) rfl (.next rfl)
    hKept comes

/-- A handle is dropped. The plain evaluator knows only by which code it is dropped,
returning or unwinding, and that suffices. -/
theorem reads_drop (h : Composed m ledger pile known) (hPlainly : m.Plainly ledger)
    (hGoesOn : m.step.poisoned = false) {handle : Handle ν}
    (hFocus : m.focus = .drop handle) (isMarked : handle.IsMarked)
    (waits : Waits m.pend .drop clock m.travels m.control follows)
    (comes : (Plain.drop (runAt clock) m.dropsByUnwinding handle.held).meet follows
      m.reading = final) :
    m.step.Reads clock final := by
  have hClear := h.upright.stands.clear
  have hRunning : m.returning? = none := returning?_of_focus (by simp [hFocus])
  have hDrops : m.step = m.drop handle := by simp only [step, hFocus]
  cases handle with
  | thread => exact reads_dropThread h hPlainly hGoesOn hFocus waits comes
  | region visit inUnwinding =>
      have hExit : (m.isPanicking && !inUnwinding) = m.dropsByUnwinding :=
        hPlainly.exit hFocus rfl
      cases hUnwinds : m.dropsByUnwinding with
      | false =>
          rw [hUnwinds] at hExit comes
          exact reads_abandon h hPlainly hGoesOn hFocus hExit hUnwinds waits comes
      | true =>
          rw [hUnwinds] at hExit comes
          have hStep : m.step = m.perform (Context.leave visit true)
              fun m _ => m.goto .next := by
            simp only [hDrops, Machine.drop, hClear, hExit, Bool.false_eq_true,
              if_false, if_true]
          have hDeed : m.deed = .leaves visit true .nothing := by
            simp only [deed, hFocus, hExit, if_true]
          obtain ⟨context, answer, left, hContext, hOk, hAfter⟩ :=
            performed hStep hGoesOn
          rw [m.reading_open hContext] at comes
          exact h.reads_tame hPlainly hGoesOn hDeed hAfter hRunning trivial rfl
            (fun hLands => by cases hLands)
            (sights_store m left) rfl (.next rfl) waits comes
  | call entry inUnwinding =>
      have hStep :
          m.step = m.perform (Context.leaveCall entry (m.isPanicking && !inUnwinding))
          fun m _ => m.goto .next := by
        simp only [hDrops, Machine.drop, hClear, Bool.false_eq_true, if_false]
      have hDeed : m.deed = .leavesCall entry := by simp only [deed, hFocus]
      obtain ⟨context, answer, left, hContext, hOk, hAfter⟩ := performed hStep hGoesOn
      rw [m.reading_open hContext] at comes
      exact h.reads_tame hPlainly hGoesOn hDeed hAfter hRunning trivial rfl
        (fun hLands => hLands.elim) (sights_store m left) rfl (.next rfl) waits comes
  | guards scope =>
      cases hMark : scope.mark with
      | none =>
          have hStep : m.step = m.goto .next := by
            simp only [hDrops, Machine.drop, hMark]
          change (guardBodies (runAt clock) m.dropsByUnwinding scope.bodies).meet
            follows m.reading = final at comes
          rw [isMarked hMark] at comes
          exact .of_same hStep rfl rfl rfl rfl (.next rfl) waits comes
      | some mark =>
          have hExit : (m.isPanicking && !scope.inUnwinding) = m.dropsByUnwinding :=
            hPlainly.exit hFocus (by simp [Handle.asksExit, hMark])
          have hStep :
              m.step =
              m.goto
              (.leaveScope ⟨scope.site, mark, m.isPanicking && !scope.inUnwinding,
              scope.bodies⟩) := by
            simp only [hDrops, Machine.drop, hMark, hClear, Bool.false_eq_true,
              if_false]
          rw [hExit] at hStep
          exact .of_same hStep rfl rfl rfl rfl (.leaveScope rfl) waits comes

/-- A scope is left: its newest body is run if it applies to the way in which the scope
is left, or passed over, and the bodies below it are left to the next step. -/
theorem reads_leaveScope (h : Composed m ledger pile known)
    (hPlainly : m.Plainly ledger) (hGoesOn : m.step.poisoned = false)
    (hWeight : m.step.weight < m.weight) (hClock : m.weight ≤ clock) {scope : Leaving ν}
    (hFocus : m.focus = .leaveScope scope)
    (waits : Waits m.pend .drop clock m.travels m.control follows)
    (comes : (guardBodies (runAt clock) scope.unwinding scope.bodies).meet follows
      m.reading = final) :
    ∃ clock, m.step.weight ≤ clock ∧ m.step.Reads clock final := by
  have hLess := Nat.le_trans (Nat.le_of_lt hWeight) hClock
  have hStep : m.step = m.leaveScope scope := by simp only [step, hFocus]
  have hRunning : m.returning? = none := returning?_of_focus (by simp [hFocus])
  unfold Machine.leaveScope at hStep
  cases hBodies : scope.bodies with
  | nil =>
      rw [hBodies] at hStep
      obtain ⟨context, answer, left, hContext, hOk, hAfter⟩ := performed hStep hGoesOn
      have hDeed : m.deed = .closesScope scope.mark := by
        simp only [deed, hFocus, hBodies]
      rw [hBodies, m.reading_open hContext] at comes
      exact ⟨clock, hLess, h.reads_tame hPlainly hGoesOn hDeed hAfter hRunning trivial
        rfl (fun hLands => hLands.elim) (sights_store m left) rfl (.next rfl)
        waits comes⟩
  | cons entry bodies =>
      obtain ⟨flavor, body⟩ := entry
      rw [hBodies] at comes
      cases hApplies : flavor.applies scope.unwinding with
      | false =>
          have hAfter : m.step = m.goto (.leaveScope { scope with bodies }) := by
            simp only [hStep, hBodies, hApplies, Bool.false_eq_true, if_false]
          simp only [guardBodies, hApplies, Bool.false_eq_true, if_false] at comes
          exact ⟨clock, hLess, .of_same hAfter rfl rfl rfl rfl (.leaveScope rfl)
            waits comes⟩
      | true =>
          simp only [hBodies, hApplies, if_true] at hStep
          obtain ⟨context, answer, left, hContext, hOk, hAfter⟩ :=
            performed hStep hGoesOn
          have hDeed : m.deed = .shields scope.mark := by
            simp only [deed, hFocus, hBodies, hApplies, if_true]
          obtain ⟨clock, rfl⟩ :=
            Nat.exists_eq_add_one_of_ne_zero (show clock ≠ 0 by omega)
          simp only [guardBodies, hApplies, if_true] at comes
          rw [m.reading_open hContext] at comes
          exact ⟨clock, by
            omega, h.reads_tame hPlainly hGoesOn hDeed hAfter hRunning trivial rfl
              (fun hLands => hLands.elim)
            (sights_store m left) rfl (.next rfl)
              (.running (.guarding waits) allMarked_nil) comes⟩

end

end Machine

end Unwinding
