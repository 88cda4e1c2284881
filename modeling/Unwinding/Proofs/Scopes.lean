import Unwinding.Proofs.Closing
import Unwinding.Proofs.Courses
import Unwinding.Proofs.GuardBodies
import Unwinding.Proofs.Nesting

/-!
# Guard scopes

A guard scope marks the thread when its first body is registered, and takes the mark
away after the last body has run. In a strict run, in which scopes count from their
first registration, this never unbalances the thread, and dropping a scope runs its
bodies: by the time that the mark is gone, the bodies that the exit selects have been
begun, each once and the one that was registered last first, whatever the bodies before
it did.

The law is about the whole run from the drop to the end of the mark (`Drops`). Between
two steps the scope either looks at its next body, or one of its bodies runs (`Leaves`),
and what has been begun and what is still to be begun is always what the exit selects
(`leaves_of_notes`).

## Main results

* `leaves_of_notes` — how far a scope has come in a run that leaves it.
* `scopes_balance` — the law about scopes, together with that about whatever is closed.
-/

namespace Unwinding

open Context

variable {ν : Type}

/-! ## The run that leaves a scope -/

/-- The bodies of a scope that an exit selects, the one that was registered last
first. -/
def selected (unwinding : Bool) (bodies : List (Flavor × List (Stmt ν))) :
    List (List (Stmt ν)) :=
  (bodies.filter fun registered => registered.1.applies unwinding).map Prod.snd

/-- The guard body that the next step begins, for a scope that lies on top of a
ledger. -/
def Machine.begins? (outer : List Extent) (m : Machine ν) (ledger : List Extent) :
    Option (List (Stmt ν)) :=
  match m.focus with
  | .leaveScope scope =>
      if ledger = outer then (selected scope.unwinding (scope.bodies.take 1)).head? else
        none
  | _ => none

/-- Between two steps, a scope that is being left looks at its next body, or one of its
bodies runs, with whatever that has opened above the body and whatever guard bodies run
above it. The context is in use only if it was when the scope was dropped. -/
inductive Leaves (scope : Leaving ν) (outer : List Extent)
    (enclosing : List (Leaving ν))
    (busy : Prop) (m : Machine ν) (ledger : List Extent) : Prop
  | looks (hFocus : m.focus = .leaveScope scope) (hLedger : ledger = outer)
      (hLeavings : m.leavings = enclosing) (isBusy : m.inUse = true → busy)
  | runs (inner : List Extent) (above : List (Leaving ν))
      (hLedger : ledger = inner ++ .guardBody scope.mark :: outer)
      (hLeavings : m.leavings = above ++ scope :: enclosing)

section

variable {scope : Leaving ν} {outer : List Extent} {enclosing : List (Leaving ν)}
    {busy : Prop}
  {m : Machine ν} {ledger : List Extent}

private theorem begins?_of_looks {flavor : Flavor} {body : List (Stmt ν)}
    {bodies : List (Flavor × List (Stmt ν))} (hFocus : m.focus = .leaveScope scope)
    (hBodies : scope.bodies = (flavor, body) :: bodies) :
    (m.begins? outer outer).toList ++ selected scope.unwinding bodies =
      selected scope.unwinding scope.bodies := by
  simp only [Machine.begins?, hFocus, hBodies, selected, if_true, List.take_succ_cons,
    List.take_zero]
  cases hApplies : flavor.applies scope.unwinding <;> simp [hApplies]

private theorem begins?_of_runs {inner : List Extent} {mark : Nat} :
    m.begins? outer (inner ++ .guardBody mark :: outer) = none := by
  have hNe : inner ++ .guardBody mark :: outer ≠ outer := by
    intro hSame
    have hLength := congrArg List.length hSame
    rw [List.length_append, List.length_cons] at hLength
    omega
  unfold Machine.begins?
  split
  · rw [if_neg hNe]
  · rfl

/-- All along the steps that leave a scope, everything below its mark stays open. -/
theorem Leaves.length_le (h : Leaves scope outer enclosing busy m ledger) :
    outer.length ≤ ledger.length := by
  cases h with
  | looks hFocus hLedger hLeavings isBusy =>
      exact Nat.le_of_eq (congrArg List.length hLedger.symm)
  | runs inner above hLedger hLeavings =>
      rw [hLedger, List.length_append, List.length_cons]
      omega

/-- What a step does to a scope that is being left: it begins what is selected of the
bodies that it gets past, or it takes the mark away after the last one. -/
inductive Advances (scope : Leaving ν) (outer : List Extent)
    (enclosing : List (Leaving ν))
    (busy : Prop) (m : Machine ν) (ledger : List Extent) : Prop
  | goesOn {left : List (Flavor × List (Stmt ν))}
      (begun : (m.begins? outer ledger).toList ++ selected scope.unwinding left =
        selected scope.unwinding scope.bodies)
      (next : Leaves { scope with bodies := left } outer enclosing busy m.step
        (m.move.apply ledger))
  | closes (hFocus : m.focus = .leaveScope scope) (hBodies : scope.bodies = [])
      (isShort : (m.move.apply ledger).length < outer.length)

private theorem advances_looks (hFocus : m.focus = .leaveScope scope)
    (hLeavings : m.leavings = enclosing) (isBusy : m.inUse = true → busy)
    (hOpen : outer ≠ []) (hGoesOn : m.step.poisoned = false) :
    Advances scope outer enclosing busy m outer := by
  cases hBodies : scope.bodies with
  | nil =>
      have hMove : m.move = .closes := by simp only [Machine.move, hFocus, hBodies]
      obtain ⟨extent, rest, rfl⟩ := List.exists_cons_of_ne_nil hOpen
      exact .closes hFocus hBodies (by rw [hMove]; exact Nat.lt_succ_self _)
  | cons registered bodies =>
      obtain ⟨flavor, body⟩ := registered
      refine .goesOn (begins?_of_looks hFocus hBodies) ?_
      by_cases hApplies : flavor.applies scope.unwinding = true
      · have hBegins := Machine.begins_of_applies hFocus hBodies hApplies hGoesOn
        have hMove : m.move = .opens (.guardBody scope.mark) := by
          simp only [Machine.move, hFocus, hBodies, hApplies, if_true]
        refine .runs [] [] (by rw [hMove]; rfl) ?_
        rw [hBegins.leavings, hLeavings]
        rfl
      · have hStep := Machine.step_of_not_applies hFocus hBodies hApplies
        have hMove : m.move = .stay := by
          simp only [Machine.move, hFocus, hBodies, hApplies, if_false,
            Bool.false_eq_true]
        refine .looks (by rw [hStep]; rfl) (by rw [hMove]; rfl) ?_ ?_
        · rw [hStep]
          exact hLeavings
        · rw [hStep]
          exact isBusy

/-- A move keeps a guard body of the scope open, or closes it. -/
theorem Move.apply_guardBody (move : Move) (inner : List Extent) (mark : Nat)
    (outer : List Extent) :
    (∃ inner', move.apply (inner ++ .guardBody mark :: outer) =
      inner' ++ .guardBody mark :: outer) ∨
      move.apply (inner ++ .guardBody mark :: outer) = outer := by
  cases inner with
  | nil =>
      cases move with
      | stay => exact .inl ⟨[], rfl⟩
      | opens extent => exact .inl ⟨[extent], rfl⟩
      | closes => exact .inr rfl
      | turns phase => exact .inl ⟨[], rfl⟩
  | cons top rest => exact .inl ⟨_, Move.apply_append _ _ (by simp)⟩

/-- A step keeps a guard body of the scope running, or ends it and comes back to the
scope, with a context that is not in use. -/
theorem leavings_step_runs {above : List (Leaving ν)} (hClear : m.poisoned = false)
    (hLeavings : m.leavings = above ++ scope :: enclosing)
    (hGoesOn : m.step.poisoned = false) :
    (∃ above', m.step.leavings = above' ++ scope :: enclosing) ∨
      (m.step.focus = .leaveScope scope ∧ m.step.leavings = enclosing ∧
        m.step.inUse = false) := by
  cases Machine.nests_step hGoesOn with
  | stays same => exact .inl ⟨above, same.trans hLeavings⟩
  | @begins begun _ begins =>
      exact .inl ⟨begun :: above, by rw [begins.leavings, hLeavings]; rfl⟩
  | @ends ended value below hFocus hControl hBelow hNext =>
      have hEnded : m.leavings = ended :: m.step.leavings := by
        rw [Machine.leavings_cons hControl, Machine.leavings, hBelow]
        rfl
      have hDeed : m.deed = .unshields ended.mark := by
        simp only [Machine.deed, hFocus, hControl]
      have hFree : m.step.inUse = false :=
        (Machine.did_step hClear hGoesOn).idle fun isQuiet => by
          rw [hDeed] at isQuiet
          exact isQuiet.elim
      rw [hLeavings] at hEnded
      cases above with
      | nil =>
          obtain ⟨rfl, hRest⟩ := List.cons.inj hEnded
          exact .inr ⟨hNext, hRest.symm, hFree⟩
      | cons innermost above => exact .inl ⟨above, (List.cons.inj hEnded).2.symm⟩

/-- The ledger and the waiting code agree on whether a guard body of the scope has
ended, because they agree on how many guard bodies run. -/
theorem leaves_of_runs {inner : List Extent} {above : List (Leaving ν)}
    (hClear : m.poisoned = false) (hLeavings : m.leavings = above ++ scope :: enclosing)
    (hGoesOn : m.step.poisoned = false)
    (hAfter : Tallied m.step (m.move.apply (inner ++ .guardBody scope.mark :: outer)))
    (hOuter : outer.countP Extent.isGuardBody = enclosing.length) :
    Leaves scope outer enclosing busy m.step
      (m.move.apply (inner ++ .guardBody scope.mark :: outer)) := by
  have hCount := hAfter.count
  obtain ⟨inner', hLedger⟩ | hLedger := m.move.apply_guardBody inner scope.mark outer
  · obtain ⟨above', hNext⟩ | ⟨-, hNext, -⟩ :=
      leavings_step_runs hClear hLeavings hGoesOn
    · exact .runs inner' above' hLedger hNext
    · rw [hLedger, hNext] at hCount
      simp only [List.countP_append, List.countP_cons, Extent.isGuardBody, if_true]
        at hCount
      omega
  · obtain ⟨above', hNext⟩ | ⟨hFocus, hNext, hFree⟩ :=
      leavings_step_runs hClear hLeavings hGoesOn
    · rw [hLedger, hNext, List.length_append, List.length_cons] at hCount
      omega
    · exact .looks hFocus hLedger hNext fun hUse => by cases hUse.symm.trans hFree

private theorem advances (h : Leaves scope outer enclosing busy m ledger)
    (hOpen : outer ≠ []) (hClear : m.poisoned = false)
    (hGoesOn : m.step.poisoned = false) (hAfter : Tallied m.step (m.move.apply ledger))
    (hOuter : outer.countP Extent.isGuardBody = enclosing.length) :
    Advances scope outer enclosing busy m ledger := by
  cases h with
  | looks hFocus hLedger hLeavings isBusy =>
      subst hLedger
      exact advances_looks hFocus hLeavings isBusy hOpen hGoesOn
  | runs inner above hLedger hLeavings =>
      subst hLedger
      exact .goesOn (by rw [begins?_of_runs]; rfl)
        (leaves_of_runs hClear hLeavings hGoesOn hAfter hOuter)

/-- Only the step that takes the mark of a scope away leaves what was open when the
scope was dropped, whether or not that step answers. -/
theorem Leaves.closes (h : Leaves scope outer enclosing busy m ledger)
    (hLeaves : (m.move.apply ledger).length < outer.length) :
    m.focus = .leaveScope scope ∧ scope.bodies = [] ∧ ledger = outer ∧
      (m.inUse = true → busy) := by
  cases h with
  | looks hFocus hLedger hLeavings isBusy =>
      subst hLedger
      refine ⟨hFocus, ?_, rfl, isBusy⟩
      cases hBodies : scope.bodies with
      | nil => rfl
      | cons registered bodies =>
          have hStays : ledger.length ≤ (m.move.apply ledger).length := by
            simp only [Machine.move, hFocus, hBodies]
            split
            · exact Nat.le_succ _
            · exact Nat.le_refl _
          omega
  | runs inner above hLedger hLeavings =>
      subst hLedger
      obtain ⟨inner', hApply⟩ | hApply := m.move.apply_guardBody inner scope.mark outer
      · rw [hApply, List.length_append, List.length_cons] at hLeaves
        omega
      · rw [hApply] at hLeaves
        exact absurd hLeaves (Nat.lt_irrefl _)

end

/-! ## Runs inside of a ledger -/

section

variable {start m : Machine ν} {opened ledger : List Extent}

/-- A step of a run that closes in turn, inside of what was open at its start. -/
def Inside (outer : List Extent) (m : Machine ν) (ledger : List Extent) : Prop :=
  m.InTurn ledger ∧ outer.length ≤ ledger.length

instance (outer : List Extent) (m : Machine ν) (ledger : List Extent) :
    Decidable (Inside outer m ledger) :=
  inferInstanceAs (Decidable (_ ∧ _))

/-- How far a scope has come in a run that leaves it: what has been begun of its bodies,
and what is selected of those that it has not looked at yet, is what is selected of
all. -/
theorem leaves_of_notes {scope : Leaving ν} {outer : List Extent}
    {enclosing : List (Leaving ν)} {busy : Prop} {begun : List (List (Stmt ν))}
    (h : Notes (Inside outer) (Machine.begins? outer) start opened begun m ledger)
    (hTallied : Tallied start opened) (hOpen : outer ≠ [])
    (hOuter : outer.countP Extent.isGuardBody = enclosing.length)
    (hStart : Leaves scope outer enclosing busy start opened) :
    Tallied m ledger ∧ (outer.length ≤ ledger.length →
      ∃ left, Leaves { scope with bodies := left } outer enclosing busy m ledger ∧
        begun ++ selected scope.unwinding left =
          selected scope.unwinding scope.bodies) := by
  induction h with
  | start => exact ⟨hTallied, fun _ => ⟨scope.bodies, hStart, rfl⟩⟩
  | @step noted m ledger before isAllowed goesOn ih =>
      obtain ⟨hNow, hLeft⟩ := ih
      obtain ⟨left, hLeaves, hNoted⟩ := hLeft isAllowed.2
      have hNext := hNow.step isAllowed.1 goesOn
      refine ⟨hNext, fun hInside => ?_⟩
      cases advances hLeaves hOpen hNow.stands.clear goesOn hNext hOuter with
      | @goesOn rest begun next =>
          refine ⟨rest, next, ?_⟩
          rw [List.append_assoc]
          exact (congrArg (noted ++ ·) begun).trans hNoted
      | closes hFocus hEmpty isShort => exact absurd hInside (Nat.not_le_of_lt isShort)

end

/-! ## The laws -/

/-- The extent of a run that drops a scope, from the step that drops it to the step that
takes its mark away, and the bodies that are begun in between. Whether the last step
answers is not said.

Whatever the bodies do in between happens inside of what was open, which is what tells
the steps of this scope from those of others. -/
structure Drops (m : Machine ν) (ledger : List Extent) (scope : Scope ν) (mark : Nat)
    (begun : List (List (Stmt ν))) (last : Machine ν) (inside : List Extent) :
      Prop where
  focus : m.focus = .drop (.guards scope)
  marked : scope.mark = some mark
  notes : Notes (Inside ledger) (Machine.begins? ledger) m.step (m.move.apply ledger)
    begun last inside
  isInside : Inside ledger last inside
  leaves : (last.move.apply inside).length < ledger.length

section

variable {m last : Machine ν} {ledger inside : List Extent} {scope : Scope ν}
    {mark : Nat}
  {begun : List (List (Stmt ν))}

/-- To drop the handle of a scope that has a mark begins to leave it, and closes nothing
yet. -/
theorem leaves_of_drop (hClear : m.poisoned = false)
    (hFocus : m.focus = .drop (.guards scope)) (hMark : scope.mark = some mark) :
    m.step.poisoned = false ∧ m.move.apply ledger = ledger ∧
      Leaves ⟨scope.site, mark, m.isPanicking && !scope.inUnwinding, scope.bodies⟩
        ledger
        m.leavings (m.inUse = true) m.step ledger := by
  have hStep : m.step = m.goto
      (.leaveScope ⟨scope.site, mark, m.isPanicking && !scope.inUnwinding,
        scope.bodies⟩) := by
    simp only [Machine.step, hFocus, Machine.drop, hMark, hClear, Bool.false_eq_true,
      if_false]
  exact ⟨by rw [hStep]; exact hClear, by simp only [Machine.move, hFocus]; rfl,
    .looks (by rw [hStep]; rfl) rfl (by rw [hStep]; rfl) (by rw [hStep]; exact id)⟩

/-- The mark of a scope that is dropped was put down last. -/
theorem Drops.head (h : Drops m ledger scope mark begun last inside)
    (hTurn : m.InTurn ledger) :
    ledger.head? = some (.scope mark) :=
  hTurn.closing (.scope mark)
    (by simp [Machine.closing?, h.focus, Handle.extent?, h.marked])

/-- Dropping a scope begins the bodies that it takes its exit to select, and no other of
its bodies, before its mark goes. -/
theorem Drops.begun_eq (h : Drops m ledger scope mark begun last inside)
    (hTallied : Tallied m ledger) (hTurn : m.InTurn ledger) :
    inside = ledger ∧ (last.inUse = true → m.inUse = true) ∧
      last.focus =
        .leaveScope ⟨scope.site, mark, m.isPanicking && !scope.inUnwinding, []⟩ ∧
      begun = selected (m.isPanicking && !scope.inUnwinding) scope.bodies := by
  obtain ⟨hDropped, hMove, hLeaves⟩ :=
    leaves_of_drop hTallied.stands.clear h.focus h.marked
  have hOpen : ledger ≠ [] := List.ne_nil_of_mem (List.mem_of_mem_head? (h.head hTurn))
  have hStart := hTallied.step hTurn hDropped
  have hNotes := h.notes
  rw [hMove] at hNotes hStart
  obtain ⟨-, hLeft⟩ := leaves_of_notes hNotes hStart hOpen hTallied.count hLeaves
  obtain ⟨left, hLast, hBegun⟩ := hLeft h.isInside.2
  obtain ⟨hFocus, hEmpty, hSame, isBusy⟩ := hLast.closes h.leaves
  obtain rfl : left = [] := hEmpty
  exact ⟨hSame, isBusy, hFocus, by simpa [selected] using hBegun⟩

end

/-- In a strict run, where a scope counts from its first registration, nothing that is
closed fails to be closed, and no dispatch mark fails to be taken off before a handler
begins, unless a message is being written or an explicit region is abandoned that no
region reports. And a scope that is dropped begins its bodies, those that it takes its
exit to select, the one that was registered last first, before its mark goes.

The bodies are selected by what the scope takes its exit to be, which is whether the
thread is unwinding now and was not when the scope was opened. That this is the exit is
another question, and has another answer. -/
theorem scopes_balance {process : Process} {auto : Bool} {limits : Option Limits}
    {body : List (Stmt ν)} {m : Machine ν} {ledger : List Extent}
    (h : Reaches Machine.Strict (.start process auto limits body)
      (Machine.start process auto limits body).opened m ledger)
    (hStrict : m.Strict ledger) :
    (m.move = .closes → m.step.Closed) ∧
    (∀ region exception, m.focus = .offer region exception → m.step.Closed) ∧
    ∀ scope mark begun last inside, Drops m ledger scope mark begun last inside →
      last.focus =
        .leaveScope ⟨scope.site, mark, m.isPanicking && !scope.inUnwinding, []⟩ ∧
        begun = selected (m.isPanicking && !scope.inUnwinding) scope.bodies := by
  obtain ⟨flying, parked, hSound⟩ := sound_of_strict h.unfolds.consults
  refine ⟨hSound.closed_step hStrict, fun region exception => hSound.closed_offer, ?_⟩
  intro scope mark begun last inside hDrops
  have hTallied := tallied_of_reaches (h.mono fun _ _ hAllowed => hAllowed.1.1)
    (tallied_start process auto limits body)
  obtain ⟨-, -, hFocus, hBegun⟩ := hDrops.begun_eq hTallied hStrict.1.1
  exact ⟨hFocus, hBegun⟩

/-- The scope that is dropped next. -/
def Machine.dropped? (m : Machine ν) : Option (Scope ν) :=
  match m.focus with
  | .drop (.guards scope) => some scope
  | _ => none

private theorem Machine.focus_of_dropped? {m : Machine ν} {scope : Scope ν}
    (h : m.dropped? = some scope) :
    m.focus = .drop (.guards scope) := by
  unfold dropped? at h
  split at h
  · next hFocus =>
      cases h
      exact hFocus
  · cases h

/-- Whether the next step of a run inside of a ledger leaves it. -/
def leavesInside (outer : List Extent) (m : Machine ν) (ledger : List Extent) : Bool :=
  decide (Inside outer m ledger) && !m.step.poisoned &&
    decide ((m.move.apply ledger).length < outer.length)

/-- A run that is followed to the drop of a scope, and on to the end of its mark. -/
theorem Drops.of_follow {allowed : Machine ν → List Extent → Prop}
    [∀ m ledger, Decidable (allowed m ledger)] {start : Machine ν}
    {opened : List Extent} (count more : Nat) (test : Machine ν → Scope ν → Bool)
    (h : (follow allowed count start opened).any (fun state =>
      decide (allowed state.1 state.2) &&
      (state.1.dropped?.any fun scope => scope.mark.isSome && test state.1 scope) &&
      (follow (Inside state.2) more state.1.step (state.1.move.apply state.2)).any
        fun final =>
        leavesInside state.2 final.1 final.2) = true) :
    ∃ m ledger scope mark begun last inside, Reaches allowed start opened m ledger ∧
      allowed m ledger ∧ Drops m ledger scope mark begun last inside ∧
      last.step.poisoned = false ∧ test m scope = true := by
  obtain ⟨m, ledger, hReaches, hTest⟩ := Reaches.of_follow count
    (fun m ledger =>
      decide (allowed m ledger) &&
      (m.dropped?.any fun (scope : Scope ν) => scope.mark.isSome && test m scope) &&
      (follow (Inside ledger) more m.step (m.move.apply ledger)).any
        fun (final : Machine ν × List Extent) => leavesInside ledger final.1 final.2) h
  rw [Bool.and_eq_true, Bool.and_eq_true, decide_eq_true_eq, Option.any_eq_true]
    at hTest
  obtain ⟨⟨isAllowed, scope, hDropped, hScope⟩, hRun⟩ := hTest
  rw [Bool.and_eq_true, Option.isSome_iff_exists] at hScope
  obtain ⟨⟨mark, hMark⟩, hScope⟩ := hScope
  obtain ⟨last, inside, hInside, hLast⟩ :=
    Reaches.of_follow more (leavesInside ledger) hRun
  simp only [leavesInside, Bool.and_eq_true, decide_eq_true_eq, Bool.not_eq_true']
    at hLast
  obtain ⟨begun, hNotes⟩ := hInside.notes (Machine.begins? ledger)
  exact ⟨m, ledger, scope, mark, begun, last, inside, hReaches, isAllowed,
    ⟨Machine.focus_of_dropped? hDropped, hMark, hNotes, hLast.1.1, hLast.2⟩, hLast.1.2,
      hScope⟩

/-- A scope with two bodies. -/
def guarded : List (Stmt Nat) :=
  [.acquire "guard" (.guards ⟨"main", 1, "main"⟩) 1,
    .guard "guard" .always [.say "undo"], .guard "guard" .failure [.say "rollback"],
    .release "guard" .drop]

/-- The law speaks of the scope of `guarded`, from its drop to the step that takes its
mark away. -/
theorem scopes_balance_guarded :
    ∃ (m last : Machine Nat) (ledger inside : List Extent) (scope : Scope Nat)
      (mark : Nat)
      (undo rollback : List (Stmt Nat)),
      scope.bodies = [(.failure, rollback), (.always, undo)] ∧ last.move = .closes ∧
        last.step.Closed ∧ Drops m ledger scope mark [undo] last inside := by
  obtain ⟨m, ledger, scope, mark, begun, last, inside, hReaches, hStrict, hDrops, hEnds,
      hTest⟩ :=
    Drops.of_follow 12 7
      (fun m scope =>
        decide (scope.bodies.map Prod.fst = [.failure, .always]) && !m.isPanicking)
      (show (follow Machine.Strict 12 (.start {} true none guarded)
        (Machine.start {} true none guarded).opened).any _ = true by decide +kernel)
  rw [Bool.and_eq_true, decide_eq_true_eq, Bool.not_eq_true'] at hTest
  obtain ⟨hFlavors, hCalm⟩ := hTest
  obtain ⟨⟨newest, rollback⟩, rest, hBodies, rfl, hRest⟩ :=
    List.map_eq_cons_iff.1 hFlavors
  obtain ⟨⟨oldest, undo⟩, rfl, rfl⟩ := List.map_eq_singleton_iff.1 hRest
  obtain ⟨hFocus, hBegun⟩ := (scopes_balance hReaches hStrict).2.2 _ _ _ _ _ hDrops
  obtain rfl : begun = [undo] := by
    simpa [hBodies, hCalm, selected, Flavor.applies] using hBegun
  exact ⟨m, last, ledger, inside, scope, mark, undo, rollback, hBodies,
    by simp only [Machine.move, hFocus], Machine.closed_of_clear hEnds, hDrops⟩

/-- A scope is created before a call and dropped after it, and its first body is
registered during the call. -/
def lateRegistration : List (Stmt Nat) :=
  [.acquire "guard" (.guards ⟨"main", 1, "main"⟩) 1,
    .acquire "call" (.call ⟨"main", 2, "read"⟩) 1, .guard "guard" .always [.say "undo"],
    .release "call" .drop, .release "guard" .drop]

/-- The order in which scopes are created does not matter, but the order in which they
are marked does: the call finds a mark on the guard stack that was not there when it was
entered.

A scope is marked with its first registration, so one that is created early and used
late is opened late, as far as the stacks are concerned. -/
theorem lateRegistration_fails :
    ((Machine.start {} true none lateRegistration).steps 14).poisoned = true ∧
      ((Machine.start {} true none lateRegistration).steps 14).failure? =
        some (.corrupted (.callUnbalanced { } { guards := 1 })) := by
  decide +kernel

/-- Whether the handle that the next step drops is dropped by an unwinding, and not by a
statement or the end of a block. -/
def Machine.dropsByUnwinding (m : Machine ν) : Bool :=
  match m.control with
  | .unwinding _ :: _ => true
  | _ => false

end Unwinding
