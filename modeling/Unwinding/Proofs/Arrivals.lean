import Unwinding.Proofs.Composure

/-!
# Steps of waiting code

What there is to show of the steps by which a region is entered and left, and of those
by which waiting code goes on: it takes the value of what ran, or an unwinding arrives
at it. The region that catches a raise takes the exception that is on its way.

## Main results

* `Machine.reads_protect`, `Machine.reads_offer`, `Machine.reads_leave` — regions.
* `Machine.reads_next`, `Machine.reads_deliver`, `Machine.reads_unwind` — what waiting
  code does.
-/

namespace Unwinding

open Plain

variable {ν : Type}

variable {m : Machine ν} {ledger : List Extent} {pile : Pile} {known : Lineage}
    {clock : Nat}
  {final : Except Thrown (Option ν) × Store ν}

/-! ## Regions -/

/-- A region that is entered has nothing to report. -/
theorem Composed.pend_fresh (h : Composed m ledger pile known)
    (hPlainly : m.Plainly ledger) (hGoesOn : m.step.poisoned = false) {visit : Visit}
    (hDeed : m.deed = .enters visit) (isProtected : visit.explicit = false) :
    m.pend visit.id = none := by
  have hLively := h.settled.lively.step hPlainly.orderly.1 hGoesOn
  rw [(Machine.did_step h.upright.stands.clear hGoesOn).move, hDeed] at hLively
  change Lively m.step (entered visit.explicit visit :: ledger) at hLively
  rw [entered, isProtected] at hLively
  have hNot : visit.id ∉ owners ledger := hLively.protecting_not_owner
  cases hContext : m.context with
  | none =>
      rw [Machine.pend, hContext]
      rfl
  | some context =>
      rw [Machine.pend_of_context hContext]
      exact due_eq_none fun hMem => hNot ((h.settled.owed context hContext).subset hMem)

/-- The region of a body that returns has to report what the escape says that it
claims. -/
theorem Composed.pend_claims (h : Composed m ledger pile known)
    (hPlainly : m.Plainly ledger) {value : Option ν} {region : Protected ν}
    {control : List (Resumption ν)} (hFocus : m.focus = .deliver value)
    (hControl : m.control = .body region :: control) {context : Context}
    (hContext : m.context = some context) :
    m.pend region.visit.id =
      (context.escapes.head?.filter fun escape => escape.owner = region.visit.id).map
        Escape.site := by
  obtain ⟨rest, rfl⟩ := hPlainly.orderly.1.returning hFocus hControl
  rw [Machine.pend_of_context hContext]
  exact due_head (h.settled.owed context hContext) h.settled.lively.protecting_not_owner

namespace Machine

section

variable {follows : Except Thrown (Option ν) → Plain ν (Option ν)}

/-- A protected region is entered. Its body is the region with one level less, or the
code of the program when no level is left, and either way the evaluator does the
same. -/
theorem reads_protect (h : Composed m ledger pile known) (hPlainly : m.Plainly ledger)
    (hGoesOn : m.step.poisoned = false) {levels : Nat} {site : Site} {mode : Mode}
    {clauses : List (Clause ν)} {body : List (Stmt ν)}
    (hFocus : m.focus = .exec (.protect levels site mode clauses body))
    (waits : Waits m.pend .value clock m.travels m.control follows)
    (comes : (nested (region site mode (Clause.offer (runAt clock) clauses 0)) levels
      (block (runAt clock) (Stmt.evals (runAt clock) body none))).meet follows
        m.reading = final) : m.step.Reads clock final := by
  have hStep : m.step = m.protect levels site mode clauses body := by
    simp only [step, hFocus, exec]
  obtain ⟨context, visit, left, hContext, hOk, hAfter⟩ := performed hStep hGoesOn
  obtain ⟨hVisit, -⟩ := effect_enter.of_ok hOk
  have hDeed : m.deed = .enters visit := by
    simp only [deed, hFocus, deedOf, answering_ok hContext hOk]
  have hFresh := h.pend_fresh hPlainly hGoesOn hDeed (congrArg Visit.explicit hVisit)
  have hSite : visit.site = site := congrArg Visit.site hVisit
  obtain ⟨outer, hTravels⟩ := waits.lands
  rw [hTravels] at waits
  rw [m.reading_open hContext] at comes
  subst hSite
  have hRunning : m.returning? = none := returning?_of_focus (by simp [hFocus])
  rcases levels with _ | _ | inner
  · exact h.reads_tame hPlainly hGoesOn hDeed hAfter hRunning trivial hFresh
      (fun hLands => hLands.elim) (sights_store m left)
      hTravels (.next rfl) (.running (.body waits) allMarked_nil) comes
  · exact h.reads_tame hPlainly hGoesOn hDeed hAfter hRunning trivial hFresh
      (fun hLands => hLands.elim) (sights_store m left)
      hTravels (.next rfl) (.running (.body waits) allMarked_nil) comes
  · exact h.reads_tame hPlainly hGoesOn hDeed hAfter hRunning trivial hFresh
      (fun hLands => hLands.elim) (sights_store m left)
      hTravels (.protect rfl) (.body waits) comes

private theorem bindings_assigned (m : Machine ν) (name : String)
    (exception : Exception) :
    (m.assign name exception).reading.bindings =
      assigned name exception.raised m.reading.bindings :=
  map_assigned Exception.raised name exception m.bindings

/-- A region is left. -/
theorem reads_leave (h : Composed m ledger pile known) (hPlainly : m.Plainly ledger)
    (hGoesOn : m.step.poisoned = false) {region : Protected ν}
    {outcome : Except Exception (Option ν)} (hFocus : m.focus = .leave region outcome)
    (waits : Waits m.pend .value clock m.travels m.control follows)
    (comes : (leaveRegion region.mode (outcome.mapError Exception.raised)).meet follows
      m.reading = final) :
    m.step.Reads clock final := by
  have hStep : m.step = m.leave region outcome := by simp only [step, hFocus]
  obtain ⟨context, answer, left, hContext, hOk, hAfter⟩ := performed hStep hGoesOn
  have hDeed : m.deed = .leaves region.visit false (fate region.mode outcome) := by
    simp only [deed, hFocus]
  obtain ⟨outer, hTravels⟩ := waits.lands
  rw [hTravels] at waits
  rw [m.reading_open hContext] at comes
  have hRunning : m.returning? = none := returning?_of_focus (by simp [hFocus])
  have hLands (fate : Fate) : (Deed.leaves region.visit false fate).LetsGo →
      (none :: outer : List (Option Raised)).head? = some none :=
    fun _ => rfl
  cases outcome with
  | ok value =>
      cases hMode : region.mode with
      | run =>
          simp only [hMode] at hAfter hDeed comes
          have hLog : ((m.store left).emit (.result value)).sights = .result value ::
              m.sights :=
            congrArg (List.cons _) (sights_store m left)
          exact h.reads_tame hPlainly hGoesOn hDeed hAfter hRunning trivial rfl
            (hLands _) hLog hTravels (.deliver rfl) waits comes
      | attempt name =>
          simp only [hMode] at hAfter hDeed comes
          have hLog : ((m.store left).emit (.fulfilled value)).sights =
              .fulfilled value :: m.sights :=
            congrArg (List.cons _) (sights_store m left)
          exact h.reads_tame hPlainly hGoesOn hDeed hAfter hRunning trivial rfl
            (hLands _) hLog hTravels (.deliver rfl) waits comes
  | error exception =>
      cases hMode : region.mode with
      | run =>
          simp only [hMode] at hAfter hDeed comes
          exact h.reads_tame hPlainly hGoesOn hDeed hAfter hRunning trivial rfl
            (hLands _) (sights_store m left) hTravels
            (.forward rfl) (.arriving waits) comes
      | attempt name =>
          simp only [hMode] at hAfter hDeed comes
          have hLog : ((m.store left).emit (.unmatched (m.view exception))).sights =
              .unmatched exception.raised (m.registry.table.name exception.kind) ::
                m.sights :=
            congrArg (List.cons _) (sights_store m left)
          change (give (.ok none)).meet follows { m.reading with
            opened := true
            path := m.path.tail
            bindings := assigned name exception.raised m.reading.bindings
            log :=
              .unmatched exception.raised (m.registry.table.name exception.kind) ::
              m.sights } = final at comes
          rw [← m.bindings_assigned] at comes
          exact h.reads_tame hPlainly hGoesOn hDeed hAfter hRunning trivial rfl
            (hLands _) hLog hTravels (.deliver rfl) waits comes

/-- The clauses of a region are tried on an exception. -/
theorem reads_offer (h : Composed m ledger pile known) (hPlainly : m.Plainly ledger)
    (hGoesOn : m.step.poisoned = false) {region : Protected ν} {exception : Exception}
    (hFocus : m.focus = .offer region exception)
    (waits : Waits m.pend .value clock m.travels m.control follows)
    (comes : ((Clause.offer (runAt clock) region.clauses 0 exception.raised).meet
      (afterClauses region.mode exception.raised)).meet follows m.reading = final) :
        m.step.Reads clock final := by
  have hStep : m.step = m.offer region exception := by simp only [step, hFocus]
  unfold Machine.offer at hStep
  dsimp only at hStep
  generalize hFits : region.clauses.zipIdx.find? _ = found at hStep
  have hOffer : Clause.offer (runAt clock) region.clauses 0 exception.raised m.reading =
      handle (runAt clock) exception.raised found m.reading :=
    (offer_eq (runAt clock) exception.raised m.reading region.clauses 0).trans
      (congrArg (fun found => handle (runAt clock) exception.raised found m.reading)
        hFits)
  cases found with
  | none =>
      unfold meet at comes
      rw [hOffer] at comes
      exact .of_same hStep rfl rfl rfl rfl (.leave rfl) waits comes
  | some found =>
      obtain ⟨clause, index⟩ := found
      obtain ⟨context, answer, left, hContext, hOk, hAfter⟩ := performed hStep hGoesOn
      have hDeed : m.deed = .handles region.visit exception clause.name := by
        simp only [deed, hFocus, hFits]
      have hLog : ((m.store left).emit (.caught (m.view exception) index)).sights =
          .caught exception.raised (m.registry.table.name exception.kind) index ::
            m.sights :=
        congrArg (List.cons _) (sights_store m left)
      obtain ⟨outer, hTravels⟩ := waits.lands
      rw [hTravels] at waits
      rw [m.reading_open hContext] at hOffer comes
      have hHandles :
        ((valued
          (block (runAt clock) (Stmt.evals (runAt clock) clause.handler none))).meet
          (afterClauses region.mode exception.raised)).meet follows { m.reading with
            opened := true
            bindings := assigned clause.name exception.raised m.reading.bindings
            log :=
              .caught exception.raised (m.registry.table.name exception.kind) index ::
              m.sights } = final := by
        rw [← comes]
        unfold meet
        rw [hOffer]
        rfl
      rw [valued_meet, ← m.bindings_assigned] at hHandles
      exact h.reads_tame hPlainly hGoesOn hDeed hAfter
        (returning?_of_focus (by simp [hFocus])) trivial rfl
        (fun hLands => hLands.elim) hLog hTravels (.next rfl)
          (.running (.handler waits) allMarked_nil) hHandles

/-- The body of a region returns. No other body is concerned, so what the bodies around
have to report stays as it was. -/
theorem reads_claim (h : Composed m ledger pile known) (hPlainly : m.Plainly ledger)
    (hGoesOn : m.step.poisoned = false) {value : Option ν} {region : Protected ν}
    {control : List (Resumption ν)} (hFocus : m.focus = .deliver value)
    (hControl : m.control = .body region :: control)
    (waits : Waits m.pend .value clock m.travels control follows)
    (comes :
      (afterBody region.mode (Clause.offer (runAt clock) region.clauses 0)
      ((bodies control).head?.bind m.pend)
      (.ok value)).meet follows m.reading = final) : m.step.Reads clock final := by
  have hStep : m.step = m.deliver value := by rw [step, hFocus]
  unfold Machine.deliver at hStep
  simp only [hControl] at hStep
  obtain ⟨context, answer, left, hContext, hOk, hAfter⟩ := performed hStep hGoesOn
  obtain ⟨outer, hTravels⟩ := waits.lands
  rw [hTravels] at waits
  have hQuiet (id : Nat) (hMem : id ∈ bodies control) : m.news? id ledger = none := by
    have hNodup := h.settled.lively.bodies_nodup
    rw [hControl] at hNodup
    have hOther : region.visit.id ≠ id :=
      fun hSame => (List.nodup_cons.1 hNodup).1 (hSame ▸ hMem)
    simp only [news?, returning?, hFocus, hControl, if_neg hOther]
  have hEscape : m.reading.escape = m.pend region.visit.id := by
    rw [m.reading_of_control hControl]
    rfl
  rw [h.pend_claims hPlainly hFocus hControl hContext] at hEscape
  have hPath := path_step h.upright hPlainly.orderly.1 hGoesOn
  obtain ⟨_, -, -,
      ⟨hOther, hDeed, hNext, -⟩ | ⟨escape, older, hEscapes, hOwn, -, hDeed, hNext⟩⟩ :=
    Machine.claim_step hFocus hControl hContext hGoesOn
  · cases answer with
    | some exception =>
        rw [hAfter] at hNext
        cases hNext
    | none =>
        have hNone : m.reading.escape = none := by
          rw [hEscape]
          cases hHead : context.escapes.head? with
          | none => rfl
          | some newest =>
              rw [hHead] at hOther
              simp [Option.filter, show ¬ newest.owner = region.visit.id by
                simpa using hOther]
        unfold meet at comes
        rw [afterBody_closed hNone, m.reading_of_control hControl,
          m.reading_open hContext] at comes
        rw [hDeed, hAfter] at hPath
        exact h.reads_quiet hPlainly hGoesOn hDeed hAfter hQuiet
          (hPath fun _ hCall => by cases hCall) rfl (fun hLands => hLands.elim)
          (sights_store _ left) hTravels (.leave rfl) waits comes
  · cases answer with
    | none =>
        rw [hAfter] at hNext
        cases hNext
    | some exception =>
        have hSome : m.reading.escape = some escape.site := by
          rw [hEscape, hEscapes]
          simp [Option.filter, hOwn]
        have hException : exception = _ :=
          (Focus.offer.inj ((congrArg Machine.focus hAfter).symm.trans hNext)).2
        obtain ⟨config, hConfig, hKind, hLimit⟩ := h.settled.terms context hContext
        have hRaised :
            escapeRaised escape.site
            { m.reading with escape := (bodies control).head?.bind m.pend } =
            exception.raised := by
          rw [hException]
          refine Eq.trans ?_ (raised_live _ _ _ _).symm
          unfold escapeRaised
          rw [show m.reading.config = some config from hConfig]
          dsimp only [Option.getD_some]
          rw [← hKind, ← hLimit, raisedNow,
            show m.reading.path = _ from path_of_entries (entries?_some hContext)]
          rfl
        unfold meet at comes
        rw [afterBody_escaped hSome hRaised, m.reading_of_control hControl,
          m.reading_open hContext] at comes
        rw [hDeed, hAfter] at hPath
        exact h.reads_quiet hPlainly hGoesOn hDeed hAfter hQuiet
          (hPath fun _ hCall => by cases hCall) rfl (fun hLands => hLands.elim)
          (sights_store _ left) hTravels (.offer rfl) waits comes

/-! ## Values -/

/-- The thread has ended with a value. -/
theorem reads_returned {value : Option ν} {auto : Bool}
    (hFocus : m.focus = .deliver value) (hControl : m.control = [.thread auto])
    (comes : (give (.ok value)).meet give m.reading = final) :
    m.step.Reads clock final := by
  have hStep : m.step = m.deliver value := by rw [step, hFocus]
  have hLog : final.2.log = m.sights := congrArg (Store.log ∘ Prod.snd) comes.symm
  cases auto with
  | false =>
      have hAfter :
          m.step = ({ m with control := [] } : Machine ν).goto
          (.stopped (.returned value none)) := by
        simp only [hStep, deliver, hControl, Bool.false_eq_true, if_false]
      rw [hAfter]
      exact .returned rfl (congrArg Prod.fst comes.symm) hLog
  | true =>
      have hCloses := ({ m with control := [] } : Machine ν).sights_closeThread
      have hAfter : m.step = (({ m with control := [] } : Machine ν).closeThread.2).goto
          (.stopped
            (.returned value
            (some ({ m with control := [] } : Machine ν).closeThread.1))) := by
        simp only [hStep, deliver, hControl, if_true]
      rw [hAfter]
      exact .returned rfl (congrArg Prod.fst comes.symm) (hLog.trans hCloses.symm)

/-- What ran has ended with a value. -/
theorem reads_deliver (h : Composed m ledger pile known) (hPlainly : m.Plainly ledger)
    (hGoesOn : m.step.poisoned = false) (hLess : m.step.weight ≤ clock)
    {value : Option ν} (hFocus : m.focus = .deliver value)
    (waits : Waits m.pend .value clock m.travels m.control follows)
    (comes : (give (.ok value)).meet follows m.reading = final) :
    ∃ clock, m.step.weight ≤ clock ∧ m.step.Reads clock final := by
  have hStep : m.step = m.deliver value := by rw [step, hFocus]
  have hRunning (hOther : ∀ region below, m.control ≠ .body region :: below) :
      m.returning? = none := returning?_of_control hOther
  generalize hTravels : m.travels = travels at waits
  generalize hControl : m.control = control at waits
  unfold Machine.deliver at hStep
  cases waits with
  | bare =>
      simp only [hControl] at hStep
      refine ⟨clock, hLess,
        .returned (by rw [hStep]; rfl) (congrArg Prod.fst comes.symm) ?_⟩
      rw [hStep]
      exact congrArg (Store.log ∘ Prod.snd) comes.symm
  | @thread clock auto => exact ⟨clock, hLess, reads_returned hFocus hControl comes⟩
  | @block clock travels control word rest handles old follows below marked =>
      have hAfter : m.step = m.goto (.complete (some value)) := by
        simp only [hStep, hControl]
      have hSame :
          Waits m.pend .statement clock (none :: travels)
          m.control (followStatement (runAt clock) word rest old follows) :=
        hControl ▸ .statement below marked
      exact ⟨clock, hLess, .of_same hAfter rfl rfl rfl hTravels (.complete rfl)
        hSame comes⟩
  | @body clock travels control region follows below =>
      exact ⟨clock, hLess,
        reads_claim h hPlainly hGoesOn hFocus hControl (hTravels ▸ below) comes⟩
  | @handler clock travels control region raised follows below =>
      have hAfter :
          m.step = { m with control, focus := .leave region (.ok value) } := by
          simp only [hStep, hControl, goto]
      rw [m.reading_of_control hControl] at comes
      exact ⟨clock, hLess, .of_same hAfter rfl rfl rfl hTravels (.leave rfl)
        below comes⟩
  | @attempt clock travels control resume follows below =>
      have hAfter :
          m.step =
          { m with
            control
            events := .completed value :: m.events
            focus := .complete none } := by
        simp only [hStep, hControl, Machine.answer, emit, goto]
      rw [m.reading_of_control hControl] at comes
      exact ⟨clock, hLess, .of_same hAfter rfl rfl rfl hTravels (.complete rfl)
        below comes⟩
  | @resuming clock travels control text follows below =>
      have hAfter :
          m.step =
          { m with
            control
            unwindings := m.unwindings + 1
            focus := .unwind (.panic text) } := by
        simp only [hStep, hControl, Machine.unwind]
      rw [m.reading_of_control hControl] at comes
      exact ⟨clock, hLess, .of_same hAfter rfl rfl rfl hTravels (.unwind rfl .panic)
        below.reached comes⟩
  | @loop clock travels control times body follows below =>
      rw [m.reading_of_control hControl] at comes
      cases times with
      | zero =>
          have hAfter : m.step = { m with control, focus := .complete none } := by
            simp only [hStep, hControl, goto]
          exact ⟨clock, hLess, .of_same hAfter rfl rfl rfl hTravels (.complete rfl)
            below comes⟩
      | succ times =>
          have hAfter :
              m.step =
              { m with
                control := .block "" body [] none :: .loop times body :: control
                focus := .next } := by
            simp only [hStep, hControl, enterBlock, push, goto]
          exact ⟨clock, hLess, .of_same hAfter rfl rfl rfl hTravels (.next rfl)
            (.running (.loop below) allMarked_nil) comes⟩
  | @message clock travels control raising pieces follows below =>
      have hAfter : m.step = { m with control, focus := .write raising pieces } := by
        simp only [hStep, hControl, goto]
      rw [m.reading_of_control hControl] at comes
      exact ⟨clock, hLess, .of_same hAfter rfl rfl rfl hTravels (.write rfl)
        below comes⟩
  | @guarding clock travels control scope follows below =>
      simp only [hControl] at hStep
      obtain ⟨context, answer, left, hContext, hOk, hAfter⟩ := performed hStep hGoesOn
      have hDeed : m.deed = .unshields scope.mark := by
        simp only [deed, hFocus, hControl]
      rw [m.reading_of_control hControl, m.reading_open hContext] at comes
      exact ⟨clock + 1, Nat.le_succ_of_le hLess,
        h.reads_tame hPlainly hGoesOn hDeed hAfter (hRunning (by simp [hControl]))
        trivial rfl
        (fun hLands => hLands.elim) (sights_store _ left) hTravels (.leaveScope rfl)
          below comes⟩

/-- A block goes on: with its next statement, with the newest handle it still holds, or
with its value to the code that waits for it. -/
theorem reads_next (hFocus : m.focus = .next)
    {follows : Except Thrown Unit → Plain ν (Option ν)}
    (waits : Waits m.pend .drop clock m.travels m.control follows)
    (comes : (give (.ok ())).meet follows m.reading = final) :
    m.step.Reads clock final := by
  have hStep : m.step = m.proceed := by rw [Machine.step, hFocus]
  generalize hTravels : m.travels = travels at waits
  generalize hControl : m.control = control at waits
  rw [m.reading_of_control hControl] at comes
  cases waits with
  | @running clock travels control word rest handles value follows below marked =>
      cases rest with
      | cons stmt rest =>
          have hAfter :
              m.step =
              { m with
                control := .block stmt.word rest handles value :: control
                focus := .exec stmt } := by
            simp only [hStep, proceed, hControl, goto]
          refine .of_same hAfter rfl rfl rfl hTravels (.exec rfl)
            (.statement below marked) ?_
          rw [evals_cons] at comes
          exact comes
      | nil =>
          change (leaveBlock (runAt clock) (.ok value)).meet follows _ = final at comes
          cases handles with
          | nil =>
              have hAfter : m.step = { m with control, focus := .deliver value } := by
                simp only [hStep, proceed, hControl, goto]
              exact .of_same hAfter rfl rfl rfl hTravels (.deliver rfl) below comes
          | cons entry handles =>
              obtain ⟨name, handle⟩ := entry
              have hAfter :
                  m.step =
                  { m with
                    control := .block word [] handles value :: control
                    focus := .drop handle } := by
                simp only [hStep, proceed, hControl, goto]
              refine .of_same hAfter rfl rfl rfl hTravels
                (.drop rfl (marked _ List.mem_cons_self))
                (.closing below marked.tail (Nat.le_of_eq (length_heldBy handles).symm))
                  ?_
              have hLeft := leaving_cons rfl (leaving_all rfl comes)
              exact hLeft
  | @closing clock count travels control word handles value follows below marked
      bound =>
      change (leaving (runAt clock) false count (.ok value)).meet follows _ =
        final at comes
      cases handles with
      | nil =>
          have hAfter : m.step = { m with control, focus := .deliver value } := by
            simp only [hStep, proceed, hControl, goto]
          have hLeft := leaving_nil rfl comes
          exact .of_same hAfter rfl rfl rfl hTravels (.deliver rfl) below hLeft
      | cons entry handles =>
          obtain ⟨name, handle⟩ := entry
          obtain ⟨count, rfl⟩ :=
            Nat.exists_eq_add_one_of_ne_zero
            (Nat.ne_of_gt (Nat.lt_of_lt_of_le (Nat.succ_pos _) bound))
          have hAfter :
              m.step =
              { m with
                control := .block word [] handles value :: control
                focus := .drop handle } := by
            simp only [hStep, proceed, hControl, goto]
          have hLeft := leaving_cons rfl comes
          exact .of_same hAfter rfl rfl rfl hTravels
            (.drop rfl (marked _ List.mem_cons_self))
            (.closing below marked.tail (Nat.le_of_succ_le_succ bound)) hLeft
  | @releasing clock travels control follows below =>
      have hAfter : m.step = { m with control, focus := .complete none } := by
        simp only [hStep, proceed, hControl, goto]
      exact .of_same hAfter rfl rfl rfl hTravels (.complete rfl) below comes
  | @unwinding clock count flight travels control word rest handles value payload thrown
      follows below marked bound throws =>
      have hAfter :
          m.step =
          { m with
            control := .block word rest handles value :: control
            focus := .unwind payload } := by
        simp only [hStep, proceed, hControl, goto]
      exact .of_same hAfter rfl rfl rfl hTravels (.unwind rfl throws)
        (.passing below marked bound) comes

/-! ## Unwindings -/

/-- An unwinding reaches a block, or goes on in it: it drops the newest handle, or goes
on below. -/
theorem reads_passBlock {payload : Payload} {thrown : Thrown} {flight : Option Raised}
    {travels : List (Option Raised)} {control : List (Resumption ν)} {word : String}
    {rest : List (Stmt ν)} {handles : List (String × Handle ν)} {value : Option ν}
    {count : Nat} {follows : Except Thrown (Option ν) → Plain ν (Option ν)}
    (hFocus : m.focus = .unwind payload)
    (hControl : m.control = .block word rest handles value :: control)
    (hTravels : m.travels = flight :: travels) (throws : payload.Throws flight thrown)
    (waits : Waits m.pend .value clock (none :: travels) control follows)
    (marked : AllMarked handles) (bound : handles.length ≤ count)
    (comes : (leaving (runAt clock) true count (.error thrown)).meet follows m.reading =
      final) :
    m.step.Reads clock final := by
  have hStep : m.step = m.propagate payload := by simp only [step, hFocus]
  rw [m.reading_of_control hControl] at comes
  cases handles with
  | nil =>
      have hAfter : m.step = { m with control, focus := .unwind payload } := by
        simp only [hStep, propagate, hControl, goto]
      have hLeft := leaving_nil rfl comes
      exact .of_same hAfter rfl rfl rfl hTravels (.unwind rfl throws) (.arriving waits)
        hLeft
  | cons entry handles =>
      obtain ⟨name, handle⟩ := entry
      obtain ⟨count, rfl⟩ :=
        Nat.exists_eq_add_one_of_ne_zero
        (Nat.ne_of_gt (Nat.lt_of_lt_of_le (Nat.succ_pos _) bound))
      have hAfter : m.step = { m with
          control := .unwinding payload :: .block word [] handles value :: control
          focus := .drop handle } := by
        simp only [hStep, propagate, hControl, push, goto]
      have hLeft := leaving_cons rfl comes
      exact .of_same hAfter rfl rfl rfl hTravels
        (.drop rfl (marked _ List.mem_cons_self))
        (.unwinding waits marked.tail (Nat.le_of_succ_le_succ bound) throws) hLeft

/-- A raise arrives at the region that catches it. -/
theorem reads_catch (h : Composed m ledger pile known) (hPlainly : m.Plainly ledger)
    (hGoesOn : m.step.poisoned = false) {region : Protected ν}
    {control : List (Resumption ν)} {flight : Option Raised}
    {travels : List (Option Raised)} {thrown : Thrown}
    {follows : Except Thrown (Option ν) → Plain ν (Option ν)}
    (hFocus : m.focus = .unwind .raise) (hControl : m.control = .body region :: control)
    (hTravels : m.travels = flight :: travels)
    (throws : Payload.raise.Throws flight thrown)
    (waits : Waits m.pend .value clock (none :: travels) control follows)
    (comes :
      (afterBody region.mode (Clause.offer (runAt clock) region.clauses 0)
      ((bodies control).head?.bind m.pend)
      (.error thrown)).meet follows m.reading = final) : m.step.Reads clock final := by
  have hStep :
    m.step = (({ m with control } : Machine ν).caught).perform
      (Context.catchInFlight region.visit)
      fun m exception => m.goto (.offer region exception) := by
    simp only [step, hFocus, propagate, hControl]
  obtain ⟨context, exception, left, hContext, hOk, hAfter⟩ := performed hStep hGoesOn
  have hDeed : m.deed = .catches region.visit exception := by
    simp only [deed, hFocus, hControl, answering_ok (m := m) hContext hOk]
  have hCaught := Machine.caught_of_deed h.upright.stands.clear hGoesOn hDeed
  rw [hTravels] at hCaught
  obtain rfl : flight = some exception.raised := Option.some.inj hCaught
  cases throws with
  | raise isOwn =>
      rw [← isOwn _ rfl, m.reading_of_control hControl, m.reading_open hContext]
        at comes
      exact h.reads_tame hPlainly hGoesOn hDeed hAfter
        (returning?_of_focus (by simp [hFocus])) trivial rfl
        (fun hLands => hLands.elim) (sights_store _ left) hTravels (.offer rfl)
          waits comes

/-- An unwinding leaves a region that does not stop it. -/
theorem reads_passThrough (h : Composed m ledger pile known)
    (hPlainly : m.Plainly ledger) (hGoesOn : m.step.poisoned = false)
    {payload : Payload} {region : Protected ν} {control : List (Resumption ν)}
    {flight : Option Raised} {travels : List (Option Raised)} {thrown : Thrown}
    {follows : Except Thrown (Option ν) → Plain ν (Option ν)}
    (hFocus : m.focus = .unwind payload)
    (hStep : m.step = ({ m with control } : Machine ν).passThrough region payload)
    (hDeed : m.deed = .leaves region.visit true .nothing)
    (hTravels : m.travels = flight :: travels) (throws : payload.Throws flight thrown)
    (waits : Waits m.pend .value clock (none :: travels) control follows)
    (comes : (give (.error thrown)).meet follows { m.reading with
      path := m.path.tail, escape := (bodies control).head?.bind m.pend, blocks :=
        blocksOf control } = final) :
    m.step.Reads clock final := by
  unfold passThrough at hStep
  rw [if_neg (by simp [h.upright.stands.clear])] at hStep
  obtain ⟨context, answer, left, hContext, hOk, hAfter⟩ := performed hStep hGoesOn
  rw [m.reading_open hContext] at comes
  exact h.reads_tame hPlainly hGoesOn hDeed hAfter
    (returning?_of_focus (by simp [hFocus])) trivial rfl
    (fun hLands => by cases hLands) (sights_store _ left) hTravels (.unwind rfl throws)
      (.arriving waits) comes

/-- An unwinding is stopped by code that knows nothing of exceptions. -/
theorem reads_stop {text : Option String} {resume : Option (List (Stmt ν))}
    {control : List (Resumption ν)} {travels : List (Option Raised)}
    (hFocus : m.focus = .unwind (.panic text))
    (hControl : m.control = .attempt resume :: control)
    (hTravels : m.travels = none :: travels)
    {follows : Except Thrown (Option (Option ν)) → Plain ν (Option ν)}
    (waits : Waits m.pend .statement clock (none :: travels) control follows)
    (comes :
      (afterAttempt (resume.map fun between => block (runAt clock)
      (Stmt.evals (runAt clock) between none))
      (.error (.panicked text))).meet follows m.reading = final) :
        m.step.Reads clock final := by
  have hStep : m.step = m.propagate (.panic text) := by simp only [step, hFocus]
  rw [m.reading_of_control hControl] at comes
  cases resume with
  | none =>
      have hAfter : m.step = { m with
          control
          unwindings := m.unwindings - 1
          events := .unwound (.panic text) :: m.events
          focus := .complete none } := by
        simp only [hStep, propagate, hControl, caught, emit, goto]
      exact .of_same hAfter rfl rfl rfl hTravels (.complete rfl) waits comes
  | some between =>
      have hAfter : m.step = { m with
          control := .block "" between [] none :: .resuming (.panic text) :: control
          unwindings := m.unwindings - 1
          events := .unwound (.panic text) :: m.events
          focus := .next } := by
        simp only [hStep, propagate, hControl, caught, emit, enterBlock, push, goto]
      change ((block (runAt clock) (Stmt.evals (runAt clock) between none)).andThen
        fun _ =>
        Plain.throw (.panicked text)).meet follows { m.reading with
          escape := (bodies control).head?.bind m.pend
          blocks := blocksOf control
          log := .unwound (.panic text) :: m.sights } = final at comes
      rw [meet_instead] at comes
      exact .of_same hAfter rfl rfl rfl hTravels (.next rfl)
        (.running (.resuming waits) allMarked_nil) comes

/-- Nothing unwinds out of a guard body. -/
theorem poisoned_guardFailed (m : Machine ν) (scope : Leaving ν) (payload : Payload) :
    (m.guardFailed scope payload).poisoned = true :=
  Machine.poisoned_terminate _ _

/-- An unwinding leaves the thread. -/
theorem reads_unwound {payload : Payload} {thrown : Thrown} {flight : Option Raised}
    {auto : Bool} (hFocus : m.focus = .unwind payload)
    (hControl : m.control = [.thread auto]) (throws : payload.Throws flight thrown)
    (comes : (give (.error thrown)).meet give m.reading = final) :
    m.step.Reads clock final := by
  have hStep : m.step = m.propagate payload := by rw [step, hFocus]
  have hLog : final.2.log = m.sights := congrArg (Store.log ∘ Prod.snd) comes.symm
  cases auto with
  | false =>
      have hAfter :
          m.step = ({ m with control := [] } : Machine ν).goto
          (.stopped (.unwound payload)) := by
        simp only [hStep, propagate, hControl, Bool.false_eq_true, if_false]
      rw [hAfter]
      exact .unwound rfl throws.payload (congrArg Prod.fst comes.symm) hLog
  | true =>
      have hDrops := ({ m with control := [] } : Machine ν).sights_dropThread
      have hAfter :
          m.step = (({ m with control := [] } : Machine ν).dropThread).goto
          (.stopped (.unwound payload)) := by
        simp only [hStep, propagate, hControl, if_true]
      rw [hAfter]
      exact .unwound rfl throws.payload (congrArg Prod.fst comes.symm)
        (hLog.trans hDrops.symm)

/-- What waiting code does when an unwinding arrives. -/
theorem reads_unwind (h : Composed m ledger pile known) (hPlainly : m.Plainly ledger)
    (hGoesOn : m.step.poisoned = false) {payload : Payload} {thrown : Thrown}
    {flight : Option Raised} {travels : List (Option Raised)}
    (hFocus : m.focus = .unwind payload) (hTravels : m.travels = flight :: travels)
    (throws : payload.Throws flight thrown)
    {follows : Except Thrown Empty → Plain ν (Option ν)}
    (waits : Waits m.pend .unwinding clock (none :: travels) m.control follows)
    (comes : (give (.error thrown)).meet follows m.reading = final) :
    m.step.Reads clock final := by
  have hStep : m.step = m.propagate payload := by simp only [step, hFocus]
  generalize hControl : m.control = control at waits
  cases waits with
  | @passing clock count travels control word rest handles value follows below marked
      bound =>
      exact reads_passBlock hFocus hControl hTravels throws below marked bound comes
  | @arriving clock travels control follows on =>
      cases on with
      | bare =>
          have hAfter : m.step = m.goto (.stopped (.unwound payload)) := by
            simp only [hStep, propagate, hControl]
          rw [hAfter]
          exact .unwound rfl throws.payload (congrArg Prod.fst comes.symm)
            (congrArg (Store.log ∘ Prod.snd) comes.symm)
      | @thread clock auto => exact reads_unwound hFocus hControl throws comes
      | @block clock travels control word rest handles value follows below marked =>
          refine reads_passBlock hFocus hControl hTravels throws below marked
            (Nat.le_of_eq (length_heldBy handles).symm) ?_
          rw [m.reading_of_control hControl] at comes ⊢
          have hLeaves := leaving_all rfl comes
          exact hLeaves
      | @body clock travels control region follows below =>
          cases throws with
          | raise isOwn =>
              exact reads_catch h hPlainly hGoesOn hFocus hControl hTravels
                (.raise isOwn) below comes
          | @panic text =>
              have hPasses :
                  m.step = ({ m with control } : Machine ν).passThrough region
                  (.panic text) := by
                simp only [hStep, propagate, hControl]
              have hDeed : m.deed = .leaves region.visit true .nothing := by
                simp only [deed, hFocus, hControl]
              rw [m.reading_of_control hControl] at comes
              exact reads_passThrough h hPlainly hGoesOn hFocus hPasses hDeed hTravels
                .panic below comes
      | @handler clock travels control region raised follows below =>
          have hPasses :
              m.step = ({ m with control } : Machine ν).passThrough region payload := by
            simp only [hStep, propagate, hControl]
          have hDeed : m.deed = .leaves region.visit true .nothing := by
            simp only [deed, hFocus, hControl]
          rw [m.reading_of_control hControl] at comes
          exact reads_passThrough h hPlainly hGoesOn hFocus hPasses hDeed hTravels
            throws below comes
      | @attempt clock travels control resume follows below =>
          cases throws with
          | raise isOwn => exact absurd ⟨hFocus, _, _, hControl⟩ hPlainly.orderly.2
          | panic => exact reads_stop hFocus hControl hTravels below comes
      | @resuming clock travels control text follows below =>
          have hAfter : m.step = { m with control, focus := .unwind payload } := by
            simp only [hStep, propagate, hControl, goto]
          rw [m.reading_of_control hControl] at comes
          exact .of_same hAfter rfl rfl rfl hTravels (.unwind rfl throws)
            below.reached comes
      | @loop clock travels control times body follows below =>
          have hAfter : m.step = { m with control, focus := .unwind payload } := by
            simp only [hStep, propagate, hControl, goto]
          rw [m.reading_of_control hControl] at comes
          exact .of_same hAfter rfl rfl rfl hTravels (.unwind rfl throws)
            below.reached comes
      | @message clock travels control raising pieces follows below =>
          have hAfter :
              m.step = { m with control, inUse := false, focus := .unwind payload
              } := by
            simp only [hStep, propagate, hControl, goto]
          rw [m.reading_of_control hControl] at comes
          exact .of_same hAfter rfl rfl rfl hTravels (.unwind rfl throws)
            below.reached comes
      | @guarding clock travels control scope follows below =>
          have hFails :
              m.step = ({ m with control } : Machine ν).guardFailed scope payload := by
            simp only [hStep, propagate, hControl]
          rw [hFails] at hGoesOn
          cases hGoesOn.symm.trans (poisoned_guardFailed _ _ _)

end

end Machine

end Unwinding
