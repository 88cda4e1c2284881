import Unwinding.Proofs.Heights
import Unwinding.Proofs.Marks
import Unwinding.Proofs.Scopes

/-!
# The exit that a scope is left by

A scope does not know its exit: it takes it for an unwinding if the thread is unwinding
and was not when the scope was created. `scope_follows_exit` says when that is right, in
every run that closes in turn, whatever becomes of the raises in it: the scope then
begins the bodies that its real exit selects, and in the end its own mark is popped.

Two facts about such runs carry the law. An unwinding that drops a handle is counted
(`isPanicking_of_drops`), because the count follows the code that waits in any run. And
the numbers on the stack of the guard scopes are those of the scopes that are open, in
the same order (`scopes_of_reaches`), so the scope that was marked last finds its mark
on top.

## Main results

* `isPanicking_of_drops` — while an unwinding drops a handle, the thread is unwinding.
* `scopes_of_reaches` — what lies on the stack of the guard scopes.
* `scope_follows_exit` — the bodies of a scope follow the exit that is really taken.
-/

namespace Unwinding

open Context

variable {ν : Type}

/-! ## Unwindings that drop handles -/

/-- All along a run that closes in turn, each unwinding that is under way or held up is
counted. -/
theorem flows_of_reaches {start m : Machine ν} {opened ledger : List Extent}
    (h : Reaches Machine.InTurn start opened m ledger) (hClear : start.poisoned = false)
    (hStart : ∃ flying parked, start.Flows flying parked) :
    m.poisoned = false ∧ ∃ flying parked, m.Flows flying parked := by
  induction h with
  | start => exact ⟨hClear, hStart⟩
  | step before isAllowed goesOn ih =>
      obtain ⟨hNow, flying, parked, hFlows⟩ := ih
      exact ⟨goesOn, _, _, Machine.flows_step hNow goesOn hFlows⟩

/-- An unwinding that waits for the handle it drops is one of those that are counted. -/
private theorem held_pos {waiting : Resumption ν} {below : List (Resumption ν)}
    {payload : Payload} (h : waiting = .unwinding payload) :
    0 < Bone.held (((waiting :: below).map Resumption.joint).map Joint.bone) := by
  subst h
  exact Nat.succ_pos _

/-- While an unwinding drops a handle, the thread is unwinding. -/
theorem isPanicking_of_drops {m : Machine ν} {flying : Bool} {parked : List Bool}
    {handle : Handle ν} (h : m.Flows flying parked) (hFocus : m.focus = .drop handle)
    (hDrops : m.dropsByUnwinding = true) : m.isPanicking = true := by
  have hActive := h.active
  rw [Machine.joints, hFocus] at hActive
  unfold Machine.dropsByUnwinding at hDrops
  split at hDrops
  · next payload below hControl =>
      have hHeld : 0 < Bone.held ((m.control.map Resumption.joint).map Joint.bone) := by
        rw [hControl]
        exact held_pos rfl
      rw [Machine.isPanicking, decide_eq_true_eq]
      exact Nat.lt_of_lt_of_le hHeld (Nat.le_trans (Nat.le_add_right _ _) hActive)
  · cases hDrops

/-! ## The marks of the scopes that are open -/

/-- The number of a scope, for the scopes on a ledger. -/
def Extent.scope? : Extent → Option Nat
  | .scope mark => some mark
  | _ => none

/-- The numbers on the stack of the guard scopes, the newest first. -/
def Context.scopeIds (context : Context) : List Nat :=
  context.guards.live.map ScopeMark.id

private theorem length_scopes (ledger : List Extent) :
    (ledger.filterMap Extent.scope?).length = (heights ledger).guards := by
  induction ledger with
  | nil => rfl
  | cons extent rest ih =>
      cases extent with
      | scope mark => exact congrArg (· + 1) ih
      | _ => exact ih

/-- A move takes a scope off the ledger at most, unless it is the one that marks it. -/
theorem Move.scopes_apply (move : Move) (ledger : List Extent) :
    (move.apply ledger).filterMap Extent.scope? <:+ ledger.filterMap Extent.scope? ∨
      ∃ mark, move = .opens (.scope mark) ∧
        (move.apply ledger).filterMap Extent.scope? =
          mark :: ledger.filterMap Extent.scope? := by
  cases move with
  | stay => exact .inl List.suffix_rfl
  | closes => exact .inl ((List.tail_suffix ledger).filterMap _)
  | turns phase =>
      cases ledger with
      | nil => exact .inl List.suffix_rfl
      | cons top rest => cases top <;> exact .inl List.suffix_rfl
  | opens extent =>
      cases extent with
      | scope mark => exact .inr ⟨mark, rfl, rfl⟩
      | _ => exact .inl List.suffix_rfl

/-- The numbers of the scopes after an operation: some are taken off, or the next free
number is put on top of them. -/
theorem Operation.scopeIds_step (operation : Operation) (context : Context) :
    (leftBehind (operation.step context)).scopeIds <:+ context.scopeIds ∨
      (leftBehind (operation.step context)).scopeIds = context.nextId ::
        context.scopeIds := by
  have hIds (context : Context) :
      context.scopeIds = (context.marks .guards).map Mark.id := by
    rw [Context.scopeIds, Context.marks, List.map_map]
    rfl
  rw [hIds, hIds]
  obtain hSuffix | ⟨mark, hPuts, hMarks⟩ := operation.marks_step context .guards
  · exact .inl (hSuffix.map _)
  · rw [hMarks]
    cases hPuts
    exact .inr rfl

/-- What lies on the stack of the guard scopes is what is open of them. -/
structure Labelled (m : Machine ν) (ledger : List Extent) : Prop where
  upright : Upright m ledger
  scopes : ∀ context, m.context = some context →
    context.scopeIds = ledger.filterMap Extent.scope?

section

variable {m : Machine ν} {ledger : List Extent}

/-- The numbers that a step leaves of the scopes. -/
private theorem scopeIds_carried {before after : Context} (h : m.Carries before after) :
    after.scopeIds <:+ before.scopeIds ∨
      after.scopeIds = before.nextId :: before.scopeIds := by
  cases h with
  | keeps => exact .inl List.suffix_rfl
  | annotates text => exact .inl List.suffix_rfl
  | @performs operation calls => exact operation.scopeIds_step before

/-- A deed that opens a scope takes the next free number for it. -/
private theorem number_of_opensScope {deed : Deed} {before after : Entries} {mark : Nat}
    (h : deed.Turns before after) (hMove : deed.move = .opens (.scope mark)) :
    mark = before.nextId := by
  cases h with
  | quiet isQuiet => cases deed <;> first | exact isQuiet.elim | cases hMove
  | @enters _ visit state number measured =>
      rw [Deed.move] at hMove
      cases hExplicit : visit.explicit <;> simp [entered, hExplicit] at hMove
  | opensScope number =>
      cases hMove
      exact number
  | _ => cases hMove

/-- The marks and the labels stay in step: the two lists are as long as each other, and
each is the old one up to its top. -/
theorem Labelled.step (h : Labelled m ledger) (hTurn : m.InTurn ledger)
    (hGoesOn : m.step.poisoned = false) : Labelled m.step (m.move.apply ledger) := by
  have hAfter := h.upright.step hTurn hGoesOn
  refine ⟨hAfter, fun after hSome => ?_⟩
  have hDid := Machine.did_step h.upright.stands.clear hGoesOn
  have hLength : after.scopeIds.length =
      ((m.move.apply ledger).filterMap Extent.scope?).length := by
    rw [length_scopes, ← (hAfter.aligned after hSome).guards, Context.scopeIds,
      List.length_map, after.guards.depth_eq]
  cases hBefore : m.context with
  | none =>
      obtain ⟨config, limits, -, rfl⟩ := (Machine.leads_step m).opened hBefore hSome
      have hNone : (Context.new config limits).scopeIds = [] := by
        simp [Context.scopeIds, Context.new, Stack.live_reserve]
      rw [hNone] at hLength ⊢
      exact (List.length_eq_zero_iff.1 hLength.symm).symm
  | some before =>
      have hScopes := h.scopes before hBefore
      have hIds := scopeIds_carried ((Machine.leads_step m).carries hBefore hSome)
      obtain hOpen | ⟨mark, hMove, hOpen⟩ := m.move.scopes_apply ledger
      · rw [← hScopes] at hOpen
        obtain hSheds | hPuts := hIds
        · exact List.suffix_of_suffix_length_le hSheds hOpen (Nat.le_of_eq hLength)
            |>.eq_of_length hLength
        · have hShort := hOpen.length_le
          rw [← hLength, hPuts, List.length_cons] at hShort
          exact absurd hShort (Nat.not_succ_le_self _)
      · rw [hOpen, ← hScopes] at hLength ⊢
        obtain hSheds | hPuts := hIds
        · have hShort := hSheds.length_le
          rw [hLength, List.length_cons] at hShort
          exact absurd hShort (Nat.not_succ_le_self _)
        · have hOpens : m.deed ≠ .closes := by
            intro hCloses
            rw [hDid.move, hCloses] at hMove
            cases hMove
          obtain ⟨left, -, hTurns⟩ := h.upright.stands.turns hBefore hOpens hGoesOn
          rw [hPuts, number_of_opensScope hTurns (hDid.move.symm.trans hMove)]
          rfl

/-- A program begins with no scope open. -/
theorem labelled_start (process : Process) (auto : Bool) (limits : Option Limits)
    (body : List (Stmt ν)) :
    Labelled (Machine.start process auto limits body)
      (Machine.start process auto limits body).opened := by
  refine ⟨upright_start process auto limits body, fun context hContext => ?_⟩
  obtain ⟨fresh, hNone, hLeads⟩ := Machine.leads_start process auto limits body
  obtain ⟨config, limits, -, rfl⟩ := hLeads.opened hNone hContext
  rw [Machine.opened, hContext]
  simp [Context.scopeIds, Context.new, Stack.live_reserve, Extent.scope?]

/-- In a run that closes in turn, what lies on the stack of the guard scopes is what is
open of them. -/
theorem scopes_of_reaches {start : Machine ν} {opened : List Extent}
    (h : Reaches Machine.InTurn start opened m ledger)
    (hStart : Labelled start opened) :
    Labelled m ledger := by
  induction h with
  | start => exact hStart
  | step before isAllowed goesOn ih => exact ih.step isAllowed goesOn

end

/-! ## The last step of a scope -/

/-- The next step pops the mark of a scope, which is the innermost one, and nothing
else, and does not terminate the thread. -/
structure Machine.Pops (m : Machine ν) (mark : Nat) : Prop where
  goesOn : m.step.poisoned = false
  pops : ∃ before after site, m.context = some before ∧ m.step.context = some after ∧
    before.guards.live = ⟨mark, site⟩ :: after.guards.live ∧ after.entries =
      before.entries

/-- A scope whose mark is the innermost one is closed. -/
theorem ends_closeScope_top {context : Context} {top : ScopeMark}
    {rest : List ScopeMark} (hLive : context.guards.live = top :: rest) :
    Ends (closeScope top.id context)
      (fun _ after => after.guards.live = rest ∧ after.entries = context.entries)
      fun _ => False := by
  obtain ⟨popped, hPop, hPopped⟩ := Stack.pop_of_live hLive
  refine ends_bind (ends_get ?_)
  rw [Stack.top?_of_live hLive]
  simp only [if_true]
  refine ends_onGuards (fun _ hOk => ?_) fun _ hError => ?_
  · rw [hPop] at hOk
    cases hOk
    exact ⟨hPopped, rfl⟩
  · rw [hPop] at hError
    cases hError

/-- The scope that was marked last pops its own mark in the end. -/
theorem Labelled.pops {m : Machine ν} {scope : Leaving ν} {rest : List Extent}
    (h : Labelled m (.scope scope.mark :: rest)) (hFocus : m.focus = .leaveScope scope)
    (hBodies : scope.bodies = []) (hFree : m.inUse = false) : m.Pops scope.mark := by
  cases hContext : m.context with
  | none => cases h.upright.stands.closed hContext
  | some context =>
      have hIds := h.scopes context hContext
      obtain ⟨⟨mark, site⟩, live, hLive, hMark, -⟩ := List.map_eq_cons_iff.1 hIds
      obtain rfl : mark = scope.mark := hMark
      have hStep : m.step =
          m.perform (closeScope scope.mark) fun stored _ => stored.goto .next := by
        simp only [Machine.step, hFocus, Machine.leaveScope, hBodies]
      obtain ⟨answer, after, -, ⟨hLeft, hSame⟩, hNext⟩ :=
        Machine.perform_answers (fun stored _ => stored.goto .next) hContext hFree
          (ends_closeScope_top hLive)
      refine ⟨by rw [hStep, hNext]; exact h.upright.stands.clear, context,
        { after with journal := [] }, site,
          hContext, by rw [hStep, hNext]; rfl, ?_, hSame⟩
      rw [hLive, ← hLeft]

/-! ## The law -/

/-- A scope knows its exit unless it was created while the thread was unwinding and is
dropped by another unwinding, or was created before and is dropped by other code while
the thread is unwinding. Then dropping it begins the bodies that its exit selects, each
once, the one that was registered last first, and no other of its bodies, before its
mark goes; and unless it is dropped by code that writes a message, its mark is the
innermost one and is popped, with nothing else.

The second part is about where the scope ends: when the last of its bodies has run, all
that is left is to take its mark away, and no step in between has touched it. While a
message is written the runtime refuses every step, also this one. -/
theorem scope_follows_exit {process : Process} {auto : Bool} {limits : Option Limits}
    {body : List (Stmt ν)} {m last : Machine ν} {ledger inside : List Extent}
    {scope : Scope ν} {mark : Nat} {begun : List (List (Stmt ν))}
    (h : Reaches Machine.InTurn (.start process auto limits body)
      (Machine.start process auto limits body).opened m ledger)
    (hTurn : m.InTurn ledger) (hDrops : Drops m ledger scope mark begun last inside)
    (hKnows : m.isPanicking = true → scope.inUnwinding = !m.dropsByUnwinding) :
    begun = selected m.dropsByUnwinding scope.bodies ∧
      last.focus = .leaveScope ⟨scope.site, mark, m.dropsByUnwinding, []⟩ ∧
      (m.inUse = false → last.Pops mark) := by
  have hStart := labelled_start process auto limits body
  obtain ⟨-, flying, parked, hFlows⟩ := flows_of_reaches h hStart.upright.stands.clear
    ⟨_, _, Machine.flows_start process auto limits body⟩
  have hExit : (m.isPanicking && !scope.inUnwinding) = m.dropsByUnwinding := by
    cases hPanicking : m.isPanicking with
    | true => rw [hKnows hPanicking, Bool.true_and, Bool.not_not]
    | false =>
        cases hUnwinds : m.dropsByUnwinding with
        | false => rfl
        | true =>
            cases hPanicking.symm.trans
              (isPanicking_of_drops hFlows hDrops.focus hUnwinds)
  have hTallied := tallied_of_reaches h (tallied_start process auto limits body)
  obtain ⟨rfl, isBusy, hFocus, hBegun⟩ := hDrops.begun_eq hTallied hTurn
  rw [hExit] at hFocus hBegun
  refine ⟨hBegun, hFocus, fun hFree => ?_⟩
  obtain ⟨rest, rfl⟩ := List.head?_eq_some_iff.1 (hDrops.head hTurn)
  obtain ⟨hDropped, -⟩ := @leaves_of_drop ν m (.scope mark :: rest) scope mark
    hTallied.stands.clear hDrops.focus hDrops.marked
  have hInside := (hDrops.notes.reaches).mono fun _ _ hAllowed => hAllowed.1
  have hLast := scopes_of_reaches ((h.step hTurn hDropped).trans hInside) hStart
  have hIdle : last.inUse = false := by
    cases hUse : last.inUse with
    | false => rfl
    | true => cases (isBusy hUse).symm.trans hFree
  exact Labelled.pops hLast hFocus rfl hIdle

/-- A scope with a body for each exit is left by a raise. -/
def leftByRaise : List (Stmt Nat) :=
  [.protect 1 ⟨"main", 1, "main"⟩ .run catchAll
    [.acquire "guard" (.guards ⟨"main", 2, "main"⟩) 1,
      .guard "guard" .success [.say "commit"],
      .guard "guard" .failure [.say "rollback"],
      .raise (.direct .illegalEscape) ⟨"main", 3, "main"⟩ []]]

/-- The law speaks of the scope of `leftByRaise`. -/
theorem scope_follows_exit_raise :
    ∃ (m last : Machine Nat) (ledger inside : List Extent) (scope : Scope Nat)
      (mark : Nat)
      (commit rollback : List (Stmt Nat)),
      scope.bodies = [(.failure, rollback), (.success, commit)] ∧ m.dropsByUnwinding =
        true ∧
        Drops m ledger scope mark [rollback] last inside ∧ last.Pops mark := by
  obtain ⟨m, ledger, scope, mark, begun, last, inside, hReaches, hTurn, hDrops, -,
      hTest⟩ :=
    Drops.of_follow 16 7
      (fun (m : Machine Nat) (scope : Scope Nat) =>
        decide (scope.bodies.map Prod.fst = [.failure, .success]) &&
          m.dropsByUnwinding && !scope.inUnwinding && !m.inUse)
      (show (follow Machine.InTurn 16 (.start {} true none leftByRaise)
        (Machine.start {} true none leftByRaise).opened).any _ = true by decide +kernel)
  simp only [Bool.and_eq_true, decide_eq_true_eq, Bool.not_eq_true'] at hTest
  obtain ⟨⟨⟨hFlavors, hUnwinds⟩, hOld⟩, hFree⟩ := hTest
  obtain ⟨⟨newest, rollback⟩, rest, hBodies, rfl, hRest⟩ :=
    List.map_eq_cons_iff.1 hFlavors
  obtain ⟨⟨oldest, commit⟩, rfl, rfl⟩ := List.map_eq_singleton_iff.1 hRest
  obtain ⟨hBegun, hFocus, hPops⟩ :=
    scope_follows_exit hReaches hTurn hDrops fun _ => by rw [hOld, hUnwinds]; rfl
  obtain rfl : begun = [rollback] := by
    simpa [hBodies, hUnwinds, selected, Flavor.applies] using hBegun
  exact ⟨m, last, ledger, inside, scope, mark, commit, rollback, hBodies, hUnwinds,
    hDrops, hPops hFree⟩

/-- While a raise unwinds, a guard body enters a protected region, registers a body in a
scope of its own, and raises. -/
def innerScope : List (Stmt Nat) :=
  [.protect 1 ⟨"main", 1, "main"⟩ .run catchAll
    [.acquire "outer" (.guards ⟨"main", 2, "main"⟩) 1,
      .guard "outer" .always
        [.protect 1 ⟨"main", 3, "undo"⟩ .run catchAll
          [.acquire "inner" (.guards ⟨"main", 4, "undo"⟩) 1,
            .guard "inner" .failure [.say "rollback"],
            .raise (.direct .illegalEscape) ⟨"main", 5, "undo"⟩ []]],
      .raise (.direct .illegalEscape) ⟨"main", 6, "main"⟩ []]]

/-- A scope that is created in a guard body while the thread unwinds, and left by a
raise, takes its exit for a normal one: its body for unwindings does not run.

The scope asks whether the thread is unwinding and takes off what was already under way
when it was created. A raise that begins later inside of the same guard body is not seen
in this way. -/
theorem innerScope_misled :
    ∃ m ledger scope mark last inside rollback,
      Reaches Machine.Orderly (.start {} true none innerScope)
        (Machine.start {} true none innerScope).opened m ledger ∧
        scope.bodies = [(.failure, rollback)] ∧ m.dropsByUnwinding = true ∧
        Drops m ledger scope mark [] last inside := by
  obtain ⟨m, ledger, scope, mark, begun, last, inside, hReaches, hOrderly, hDrops, -,
      hTest⟩ :=
    Drops.of_follow 28 1
      (fun (m : Machine Nat) (scope : Scope Nat) =>
        decide (scope.bodies.map Prod.fst = [.failure]) && scope.inUnwinding &&
          m.dropsByUnwinding)
      (show (follow Machine.Orderly 28 (.start {} true none innerScope)
        (Machine.start {} true none innerScope).opened).any _ = true by decide +kernel)
  simp only [Bool.and_eq_true, decide_eq_true_eq] at hTest
  obtain ⟨⟨hFlavors, hOld⟩, hUnwinds⟩ := hTest
  obtain ⟨⟨flavor, rollback⟩, hBodies, rfl⟩ := List.map_eq_singleton_iff.1 hFlavors
  have hTallied := tallied_of_reaches (hReaches.mono fun _ _ hAllowed => hAllowed.1)
    (tallied_start {} true none innerScope)
  obtain ⟨-, -, -, hBegun⟩ := hDrops.begun_eq hTallied hOrderly.1
  obtain rfl : begun = [] := by
    rw [hBegun, hOld, hBodies, Bool.not_true, Bool.and_false]
    rfl
  exact ⟨m, ledger, scope, mark, last, inside, rollback, hReaches, hBodies, hUnwinds,
    hDrops⟩

end Unwinding
