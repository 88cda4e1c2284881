import Unwinding.Proofs.Attendance

/-!
# The lives of regions

In a run that closes in turn, code runs only in regions whose body or handler waits for
it, or that have called it while they try their clauses. A region is handling exactly as
long as one of its handlers is there.

The life of a region is what it tells of itself from its entry on. A region tells of a
new state only when its own code gets there, and the way of the code is the same in all
runs: `RegionState.past` is the way to each state.

## Main results

* `Attended.keepsStates` — how the states of regions fit the code that runs.
* `Tale.next` — a situation goes on with the life of a region by what it tells.
* `lives_in_order` — the law of a whole run.
-/

namespace Unwinding

open Context

variable {ν : Type}

/-! ## How states fit the code that runs -/

/-- How the states of regions fit the code that runs in a situation. -/
structure Situation.KeepsStates (situation : Situation ν) (context : Context) :
    Prop where
  /-- While code runs, it is in the body or a handler of every protected region that is
  open, or in code that the region has called while it tries its clauses. -/
  runs : (∀ region exception, situation.machine.focus ≠ .offer region exception) →
    (∀ region outcome, situation.machine.focus ≠ .leave region outcome) →
    ∀ region ∈ context.regions.live, region.visit.explicit = false →
      region.state = .dispatching ∨ region.state = .handling ∨
        region.state = .matching ∧
          ∃ inquiry ∈ situation.inquiries, inquiry.region.visit = region.visit
  /-- A region that has called code is matching until the code has ended. -/
  asking : ∀ inquiry ∈ situation.inquiries,
    ⟨inquiry.region.visit, .matching⟩ ∈ context.regions.live
  /-- A region is handling only while one of its handlers is there, or has just
  returned. -/
  handling : ∀ region ∈ context.regions.live, region.state = .handling →
    (∃ handled, .handler handled ∈ situation.machine.control ∧
      handled.visit = region.visit) ∨
      ∃ returned value, situation.machine.focus = .leave returned (.ok value) ∧
        returned.visit = region.visit
  /-- A region whose handler is there is handling. -/
  handled : ∀ region, .handler region ∈ situation.machine.control →
    ⟨region.visit, .handling⟩ ∈ context.regions.live
  /-- A region that is handling has no dispatch mark. -/
  unmarked : ∀ region ∈ context.regions.live, region.state = .handling →
    .region region.visit.id ∉ context.dispatch.live

section

variable {m : Machine ν} {ledger : List Extent}

/-- The stage of waiting code is that of a body or a handler. -/
theorem mem_stagesOf {control : List (Resumption ν)} {stage : Stage}
    (h : stage ∈ stagesOf control) :
    stage.position = .body ∨ stage.position = .handler ∧ ∃ region,
      .handler region ∈ control ∧ region.visit = stage.visit := by
  obtain ⟨waiting, hMem, hStage⟩ := List.mem_filterMap.1 h
  cases waiting with
  | body region =>
      cases hStage
      exact .inl rfl
  | handler region =>
      cases hStage
      exact .inr ⟨rfl, region, hMem, rfl⟩
  | _ => cases hStage

/-- The stage of a region that the machine is busy with is none of a handler that
waits. -/
theorem mem_stage_focus {focus : Focus ν} {stage : Stage}
    (h : stage ∈ focus.stage?.toList) :
    stage.position = .clauses ∨ stage.position = .declined ∨
      stage.position = .returned ∧ ∃ region value, focus = .leave region (.ok value) ∧
        region.visit = stage.visit := by
  cases focus with
  | offer region exception => exact .inl (List.mem_singleton.1 h ▸ rfl)
  | leave region outcome =>
      cases outcome with
      | error exception => exact .inr (.inl (List.mem_singleton.1 h ▸ rfl))
      | ok value =>
          obtain rfl := List.mem_singleton.1 h
          exact .inr (.inr ⟨rfl, region, value, rfl, rfl⟩)
  | _ => cases h

/-- The mark of a protected region tells its phase. -/
theorem mem_marks_protected
    (hSorted : ∀ visit, .region visit ∈ ledger → visit.explicit = true)
    {region : Region} (hMem : region ∈ ledger.filterMap Extent.mark?)
    (hProtected : region.visit.explicit = false ∨ region.state = .handling) :
    ∃ phase, .protecting region.visit phase ∈ ledger ∧ region.state = phase.state := by
  obtain ⟨extent, hExtent, hMark⟩ := List.mem_filterMap.1 hMem
  cases extent with
  | region visit =>
      cases hMark
      obtain hFalse | hHandling := hProtected
      · cases (hSorted visit hExtent).symm.trans hFalse
      · cases hHandling
  | protecting visit phase =>
      cases hMark
      exact ⟨phase, hExtent, rfl⟩
  | _ => cases hMark

/-- An open protected region is where some code is, with a position that fits its
phase. -/
private theorem Attended.stage_of_mark {situation : Situation ν} {context : Context}
    {region : Region} (h : Attended situation)
    (hContext : situation.machine.context = some context)
    (hMem : region ∈ context.regions.live)
    (hProtected : region.visit.explicit = false ∨ region.state = .handling) :
    ∃ phase position, .protecting region.visit phase ∈ situation.ledger ∧
      region.state = phase.state ∧ position.Fits phase ∧
      ((⟨region.visit, position⟩ : Stage) ∈ situation.machine.focus.stage?.toList ∨
        (⟨region.visit, position⟩ : Stage) ∈ stagesOf situation.machine.control ∨
        position = .clauses ∧
          ∃ inquiry ∈ situation.inquiries, inquiry.region.visit = region.visit) := by
  rw [h.marked context hContext] at hMem
  obtain ⟨phase, hOpen, hState⟩ :=
    mem_marks_protected h.stands.sorted.1 hMem hProtected
  obtain ⟨waiting, hAround, hStaged⟩ := h.staged
  obtain ⟨position, hStage, hFits⟩ := hStaged.of_phase hOpen
  refine ⟨phase, position, hOpen, hState, hFits, ?_⟩
  rcases List.mem_append.1 hStage with hFocus | hWaiting
  · exact .inl hFocus
  · obtain hCode | ⟨inquiry, hInquiry, hSame⟩ := hAround.cases_mem hWaiting
    · rw [stagesOf_bare] at hCode
      exact .inr (.inl hCode)
    · exact .inr (.inr ⟨congrArg Stage.position hSame, inquiry, hInquiry,
        (congrArg Stage.visit hSame).symm⟩)

/-- In a run in turn, the context has the states that the ledger says. -/
theorem Attended.keepsStates {situation : Situation ν} (h : Attended situation)
    {context : Context} (hContext : situation.machine.context = some context) :
    situation.KeepsStates context where
  runs := by
    intro hOffer hLeave region hMem hProtected
    obtain ⟨phase, position, -, hState, hFits, hStage⟩ :=
      h.stage_of_mark hContext hMem (.inl hProtected)
    have hNone : situation.machine.focus.stage? = none := by
      cases hFocus : situation.machine.focus with
      | offer region exception => exact (hOffer _ _ hFocus).elim
      | leave region outcome => exact (hLeave _ _ hFocus).elim
      | _ => rfl
    rw [hState]
    rw [hNone] at hStage
    obtain hFocus | hCode | ⟨rfl, hInquiry⟩ := hStage
    · cases hFocus
    · obtain hPosition | ⟨hPosition, -⟩ := mem_stagesOf hCode
      all_goals
        cases hPosition
        cases phase <;>
          first | exact .inl rfl | exact .inr (.inl rfl) | exact hFits.elim
    · cases phase <;> first | exact .inr (.inr ⟨rfl, hInquiry⟩) | exact hFits.elim
  asking := by
    intro inquiry hInquiry
    obtain ⟨waiting, hAround, hStaged⟩ := h.staged
    obtain ⟨phase, hOpen, hFits⟩ :=
      hStaged.of_stage (List.mem_append_right _ (hAround.of_inquiry hInquiry))
    rw [h.marked context hContext]
    refine List.mem_filterMap.2 ⟨_, hOpen, ?_⟩
    cases phase <;> first | rfl | exact hFits.elim
  handling := by
    intro region hMem hHandling
    obtain ⟨phase, position, -, hState, hFits, hStage⟩ :=
      h.stage_of_mark hContext hMem (.inr hHandling)
    have hPosition : position = .handler ∨ position = .returned := by
      cases phase <;> cases hState.symm.trans hHandling
      cases position <;> first | exact .inl rfl | exact .inr rfl | exact hFits.elim
    obtain hFocus | hCode | ⟨hClauses, -⟩ := hStage
    · obtain hClauses | hDeclined | ⟨-, hReturned⟩ := mem_stage_focus hFocus
      · rcases hPosition with h | h <;> cases hClauses.symm.trans h
      · rcases hPosition with h | h <;> cases hDeclined.symm.trans h
      · exact .inr hReturned
    · obtain hBody | ⟨-, hHandled⟩ := mem_stagesOf hCode
      · rcases hPosition with h | h <;> cases hBody.symm.trans h
      · exact .inl hHandled
    · rcases hPosition with h | h <;> cases hClauses.symm.trans h
  handled := by
    intro region hMem
    obtain ⟨waiting, hAround, hStaged⟩ := h.staged
    have hCode :
        (⟨region.visit, .handler⟩ : Stage) ∈ stagesOf situation.machine.bare := by
      rw [stagesOf_bare]
      exact List.mem_filterMap.2 ⟨_, hMem, rfl⟩
    obtain ⟨phase, hOpen, hFits⟩ :=
      hStaged.of_stage (List.mem_append_right _ (hAround.of_code hCode))
    rw [h.marked context hContext]
    refine List.mem_filterMap.2 ⟨_, hOpen, ?_⟩
    cases phase <;> first | rfl | exact hFits.elim
  unmarked := by
    intro region hMem hHandling
    obtain ⟨phase, -, hOpen, hState, -, -⟩ :=
      h.stage_of_mark hContext hMem (.inr hHandling)
    obtain ⟨floor, hLayered, -⟩ := h.stands.nested context hContext
    cases phase <;> cases hState.symm.trans hHandling
    exact hLayered.unmarked hOpen

end

/-! ## Lives -/

/-- The states that a region has gone through when it is in a state, oldest first. -/
def RegionState.past : RegionState → List RegionState
  | .entered => [.entered]
  | .dispatching => [.entered, .dispatching]
  | .matching => [.entered, .dispatching, .matching]
  | .handling => [.entered, .dispatching, .matching, .handling]
  | _ => []

/-- The states that an open region may be in. -/
def Visit.Allows (visit : Visit) (state : RegionState) : Prop :=
  if visit.explicit = true then state = .entered else state = .dispatching ∨
    state = .matching ∨ state = .handling

/-- What the news say of one region, oldest first. -/
def lifeOf (id : Nat) (news : List (Nat × RegionState)) : List RegionState :=
  (news.filterMap fun (other, state) => if other = id then some state else none).reverse

section

variable {visit : Visit} {state : RegionState}

private theorem lifeOf_append (id : Nat) (newer older : List (Nat × RegionState)) :
    lifeOf id (newer ++ older) = lifeOf id older ++ lifeOf id newer := by
  rw [lifeOf, List.filterMap_append, List.reverse_append]
  rfl

private theorem lifeOf_eq_nil {id : Nat} {news : List (Nat × RegionState)}
    (h : ∀ told ∈ news, told.1 ≠ id) :
    lifeOf id news = [] := by
  rw [lifeOf, List.filterMap_eq_nil_iff.2 fun told hMem => if_neg (h told hMem)]
  rfl

/-- A region that is entered may be in its first state. -/
theorem allows_opening (visit : Visit) : visit.Allows visit.opening := by
  unfold Visit.Allows Visit.opening
  split <;> simp

/-- A region that is past its entry is protected. -/
theorem Visit.Allows.turn {next : RegionState} (h : visit.Allows state)
    (hState : state ≠ .entered) (hNext : next = .matching ∨ next = .handling) :
    visit.Allows next := by
  unfold Visit.Allows at *
  split at h
  · exact absurd h hState
  · next hProtected => exact if_neg hProtected ▸ .inr hNext

/-- The news of its entry are the beginning of the life of a region. -/
theorem lifeOf_enters (visit : Visit) :
    lifeOf visit.id (Deed.enters visit).moved = visit.opening.past := by
  rw [Deed.moved, Visit.opening]
  split <;> simp [lifeOf, RegionState.past]

private theorem lifeOf_leaves (visit : Visit) (unwinding : Bool) (fate : Fate) :
    lifeOf visit.id (Deed.leaves visit unwinding fate).moved =
      [.cleanup, .outside] := by
  simp [lifeOf, Deed.moved]

private theorem lifeOf_single (id : Nat) (state : RegionState) :
    lifeOf id [(id, state)] = [state] := by
  simp [lifeOf]

namespace Deed

/-- The region that a deed is about. -/
def region? : Deed → Option Visit
  | .enters visit => some visit
  | .leaves visit _ _ => some visit
  | .abandons visit => some visit
  | .catches visit _ => some visit
  | .reports visit _ => some visit
  | .handles visit _ _ => some visit
  | _ => none

/-- A deed tells of the region that it is about, and of no other. -/
theorem lifeOf_moved {deed : Deed} {id : Nat}
    (h : ∀ visit, deed.region? = some visit → visit.id ≠ id) :
    lifeOf id deed.moved = [] := by
  refine lifeOf_eq_nil fun told hMem => ?_
  cases deed with
  | enters visit =>
      have hId : told.1 = visit.id := by
        rw [moved] at hMem
        split at hMem
        · rw [List.mem_singleton.1 hMem]
        · rcases List.mem_pair.1 hMem with rfl | rfl <;> rfl
      exact hId ▸ h visit rfl
  | leaves visit unwinding fate =>
      have hId :
          told.1 = visit.id := by rcases List.mem_pair.1 hMem with rfl | rfl <;> rfl
      exact hId ▸ h visit rfl
  | catches visit exception =>
      cases List.mem_singleton.1 hMem
      exact h visit rfl
  | reports visit exception =>
      cases List.mem_singleton.1 hMem
      exact h visit rfl
  | handles visit exception name =>
      cases List.mem_singleton.1 hMem
      exact h visit rfl
  | _ => cases hMem

private theorem moved_keepsMarks {deed : Deed} (keeps : deed.KeepsMarks) :
    deed.moved = [] := by
  cases deed <;> first | rfl | exact keeps.elim

/-- A region that has no mark gets none by a deed that does not enter it, and nothing is
told of it. -/
theorem Marks.gone {deed : Deed} {before after : List Region} {id : Nat}
    (h : deed.Marks before after) (hNew : ∀ visit, deed = .enters visit → visit.id ≠ id)
    (hGone : ∀ region ∈ before, region.visit.id ≠ id) :
    (∀ region ∈ after, region.visit.id ≠ id) ∧ lifeOf id deed.moved = [] := by
  have about {deed : Deed} {visit : Visit} (hVisit : deed.region? = some visit)
    (hOther : visit.id ≠ id) :
      lifeOf id deed.moved = [] :=
    lifeOf_moved fun other hSome => by
      cases hVisit.symm.trans hSome
      exact hOther
  cases h with
  | same keeps => exact ⟨hGone, congrArg (lifeOf id) (moved_keepsMarks keeps)⟩
  | enters => exact ⟨List.forall_mem_cons.2 ⟨hNew _ rfl, hGone⟩, about rfl (hNew _ rfl)⟩
  | leaves =>
      exact ⟨(List.forall_mem_cons.1 hGone).2,
        about rfl (List.forall_mem_cons.1 hGone).1⟩
  | abandons => exact ⟨(List.forall_mem_cons.1 hGone).2, rfl⟩
  | catches =>
      exact ⟨List.forall_mem_cons.2 (List.forall_mem_cons.1 hGone),
        about rfl (List.forall_mem_cons.1 hGone).1⟩
  | reports =>
      exact ⟨List.forall_mem_cons.2 (List.forall_mem_cons.1 hGone),
        about rfl (List.forall_mem_cons.1 hGone).1⟩
  | handles =>
      exact ⟨List.forall_mem_cons.2 (List.forall_mem_cons.1 hGone),
        about rfl (List.forall_mem_cons.1 hGone).1⟩

/-- What a deed does to the mark of an open region: the mark stays or goes on to the
next state, the region is left, or it is abandoned. A deed is about the top mark alone,
and a mark below it stays. -/
theorem Marks.fares {deed : Deed} {before after : List Region}
    (h : deed.Marks before after)
    (hOrdered : before.Pairwise fun upper lower => upper.visit.id > lower.visit.id)
    (hNew : ∀ other, deed = .enters other → other.id ≠ visit.id)
    (hMem : ⟨visit, state⟩ ∈ before) (hAllows : visit.Allows state) :
    (∃ next, ⟨visit, next⟩ ∈ after ∧ visit.Allows next ∧
      next.past = state.past ++ lifeOf visit.id deed.moved) ∨
      (∀ region ∈ after, region.visit.id ≠ visit.id) ∧
        ((∃ unwinding fate, deed = .leaves visit unwinding fate) ∨
          deed = .abandons visit ∧ state = .entered) := by
  have stays {deed : Deed} {other : Visit} {top : RegionState}
    {below after : List Region} (hOther : deed.region? = some other)
    (hOrdered : ((⟨other, top⟩ : Region) :: below).Pairwise fun upper lower =>
        upper.visit.id > lower.visit.id)
      (hBelow : (⟨visit, state⟩ : Region) ∈ below)
      (hAfter : ∀ region ∈ below, region ∈ after) :
      ∃ next, ⟨visit, next⟩ ∈ after ∧ visit.Allows next ∧
        next.past = state.past ++ lifeOf visit.id deed.moved := by
    refine ⟨state, hAfter _ hBelow, hAllows, ?_⟩
    rw [lifeOf_moved fun found hFound => ?_, List.append_nil]
    cases hOther.symm.trans hFound
    exact Nat.ne_of_gt ((List.pairwise_cons.1 hOrdered).1 _ hBelow)
  have alone {top : Region} {below : List Region} (hTop : top.visit = visit)
      (hOrdered : (top :: below).Pairwise fun upper lower => upper.visit.id >
        lower.visit.id) :
      ∀ region ∈ below, region.visit.id ≠ visit.id :=
    fun region hRegion => hTop ▸
      Nat.ne_of_lt ((List.pairwise_cons.1 hOrdered).1 region hRegion)
  cases h with
  | same keeps =>
      exact .inl ⟨state, hMem, hAllows, by
        rw [moved_keepsMarks keeps]; exact (List.append_nil _).symm⟩
  | @enters other =>
      refine .inl ⟨state, List.mem_cons_of_mem _ hMem, hAllows, ?_⟩
      rw [lifeOf_moved fun found hFound => ?_, List.append_nil]
      cases hFound
      exact hNew _ rfl
  | leaves =>
      rcases List.mem_cons.1 hMem with hTop | hBelow
      · cases hTop
        exact .inr ⟨alone rfl hOrdered, .inl ⟨_, _, rfl⟩⟩
      · exact .inl (stays rfl hOrdered hBelow fun _ hRegion => hRegion)
  | abandons =>
      rcases List.mem_cons.1 hMem with hTop | hBelow
      · cases hTop
        exact .inr ⟨alone rfl hOrdered, .inr ⟨rfl, rfl⟩⟩
      · exact .inl (stays rfl hOrdered hBelow fun _ hRegion => hRegion)
  | catches =>
      rcases List.mem_cons.1 hMem with hTop | hBelow
      · cases hTop
        refine .inl ⟨.matching, List.mem_cons_self, hAllows.turn (by simp) (.inl rfl),
          ?_⟩
        rw [moved, lifeOf_single]
        rfl
      · exact .inl
          (stays rfl hOrdered hBelow fun _ hRegion => List.mem_cons_of_mem _ hRegion)
  | reports =>
      rcases List.mem_cons.1 hMem with hTop | hBelow
      · cases hTop
        refine .inl ⟨.matching, List.mem_cons_self, hAllows.turn (by simp) (.inl rfl),
          ?_⟩
        rw [moved, lifeOf_single]
        rfl
      · exact .inl
          (stays rfl hOrdered hBelow fun _ hRegion => List.mem_cons_of_mem _ hRegion)
  | handles =>
      rcases List.mem_cons.1 hMem with hTop | hBelow
      · cases hTop
        refine .inl ⟨.handling, List.mem_cons_self, hAllows.turn (by simp) (.inr rfl),
          ?_⟩
        rw [moved, lifeOf_single]
        rfl
      · exact .inl
          (stays rfl hOrdered hBelow fun _ hRegion => List.mem_cons_of_mem _ hRegion)

end Deed

end

/-! ## Runs -/

/-- A step of a run that closes in turn and opens no other context, where numbers would
begin anew. -/
def Machine.InContext (m : Machine ν) (ledger : List Extent) : Prop :=
  m.InTurn ledger ∧ m.deed ≠ .opens

instance (m : Machine ν) (ledger : List Extent) : Decidable (m.InContext ledger) :=
  have : Decidable (m.deed ≠ .opens) :=
    decidable_of_iff ((match m.deed with | .opens => false | _ => true) = true)
      (by cases m.deed <;> simp)
  inferInstanceAs (Decidable (_ ∧ _))

/-- No mark on the region stack has a number. -/
def Machine.HasNoMark (m : Machine ν) (id : Nat) : Prop :=
  ∀ context, m.context = some context → ∀ region ∈ context.regions.live,
    region.visit.id ≠ id

/-- How a region has ended in a run since it was entered, with the states that it has
told of, oldest first. -/
inductive Ended (visit : Visit) (start now : Situation ν) : List RegionState → Prop
  /-- It was left on the way, from one of its states. -/
  | left {last next : Situation ν} {context : Context} {state : RegionState}
      {unwinding : Bool} {fate : Fate}
      (before : Consults Machine.InContext (fun _ => True) start last)
      (hContext : last.machine.context = some context)
      (hMark : ⟨visit, state⟩ ∈ context.regions.live) (allowed : visit.Allows state)
      (leaves : Onward Machine.InContext (fun _ => True) last
        (.leaves visit unwinding fate) next)
      (after : Consults Machine.InContext (fun _ => True) next now) :
      Ended visit start now (state.past ++ [.cleanup, .outside])
  /-- It is explicit, and was abandoned on the way. -/
  | abandoned {last next : Situation ν}
      (before : Consults Machine.InContext (fun _ => True) start last)
      (isExplicit : visit.explicit = true)
      (abandons : Onward Machine.InContext (fun _ => True) last (.abandons visit) next)
      (after : Consults Machine.InContext (fun _ => True) next now) :
      Ended visit start now [.entered]

/-- What has become of a region in a run since it was entered, with the states that it
has told of, oldest first.

The states are those that the region has told of itself. That it is in the last of them
follows from the mark, as long as there is one. -/
inductive Fared (visit : Visit) (start now : Situation ν) : List RegionState → Prop
  | stays {context : Context} {state : RegionState}
      (hContext : now.machine.context = some context)
      (hMark : ⟨visit, state⟩ ∈ context.regions.live) (allowed : visit.Allows state) :
      Fared visit start now state.past
  | gone {life : List RegionState} (unmarked : now.machine.HasNoMark visit.id)
      (ended : Ended visit start now life) : Fared visit start now life

section

variable {visit : Visit} {start now after : Situation ν} {deed : Deed}
  {life : List RegionState}

/-- A region that has ended stays so. -/
private theorem Ended.later (h : Ended visit start now life)
    (hLater : Consults Machine.InContext (fun _ => True) now after) :
    Ended visit start after life := by
  cases h with
  | left before hContext hMark allowed leaves later =>
      exact .left before hContext hMark allowed leaves (later.trans hLater)
  | abandoned before isExplicit abandons later =>
      exact .abandoned before isExplicit abandons (later.trans hLater)

/-- No other context is opened in the context of a region. -/
private theorem Onward.ne_opens
    (h : Onward Machine.InContext (fun _ => True) now deed after) : deed ≠ .opens := by
  cases h with
  | step isAllowed goesOn isInside => exact isAllowed.2
  | _ => simp

/-- What the ledger says of a region that was entered: its mark is open, or it has ended
and its number is not given out again. -/
inductive Tale (visit : Visit) (start now : Situation ν) : List RegionState → Prop
  | stays {state : RegionState}
      (hMark : ⟨visit, state⟩ ∈ now.ledger.filterMap Extent.mark?)
      (allowed : visit.Allows state) : Tale visit start now state.past
  | gone {life : List RegionState}
      (unmarked : ∀ region ∈ now.ledger.filterMap Extent.mark?,
        region.visit.id ≠ visit.id)
      (given : now.machine.HasGiven visit.id) (ended : Ended visit start now life) :
      Tale visit start now life

/-- A situation goes on with the tale of a region by what its deed tells. -/
theorem Tale.next (h : Tale visit start now life) (hAttended : Attended now)
    (hBefore : Consults Machine.InContext (fun _ => True) start now)
    (hOnward : Onward Machine.InContext (fun _ => True) now deed after) :
    Tale visit start after (life ++ lifeOf visit.id deed.moved) := by
  have hActs := hOnward.acts (fun _ _ hAllowed => hAllowed.1) hAttended.toRecorded
  have hMarks := hActs.marks
  have hNew (hGiven : now.machine.HasGiven visit.id) (other : Visit)
      (hDeed : deed = .enters other) : other.id ≠ visit.id := by
    obtain ⟨context, hContext, hNumber⟩ := (hDeed ▸ hActs).enters
    exact hNumber ▸ Nat.ne_of_gt (hGiven context hContext)
  cases h with
  | gone unmarked given ended =>
      obtain ⟨hUnmarked, hNothing⟩ := hMarks.gone (hNew given) unmarked
      rw [hNothing, List.append_nil]
      exact .gone hUnmarked (hActs.given hOnward.ne_opens given)
        (ended.later (.single ⟨deed, hOnward⟩))
  | @stays state hMark allowed =>
      obtain ⟨hOrdered, hBelow⟩ := hAttended.ordered
      have hGiven : now.machine.HasGiven visit.id :=
        fun context hContext => hBelow context hContext _ hMark
      obtain ⟨state, hNext, hAllowed, hPast⟩ | ⟨hUnmarked, hEnd⟩ :=
        hMarks.fares hOrdered (hNew hGiven) hMark allowed
      · rw [← hPast]
        exact .stays hNext hAllowed
      · refine .gone hUnmarked (hActs.given hOnward.ne_opens hGiven) ?_
        obtain ⟨unwinding, fate, rfl⟩ | ⟨rfl, rfl⟩ := hEnd
        · cases hContext : now.machine.context with
          | none =>
              rw [hAttended.stands.closed hContext] at hMark
              cases hMark
          | some context =>
              rw [lifeOf_leaves]
              exact .left hBefore hContext (hAttended.marked context hContext ▸ hMark)
                allowed hOnward .refl
        · have isExplicit : visit.explicit = true := by
            unfold Visit.Allows at allowed
            split at allowed
            · assumption
            · simp at allowed
          exact .abandoned hBefore isExplicit hOnward .refl

/-- The tale of a region that is open when a run starts. -/
theorem tale_of_consults (hStart : Attended start)
    (hOpen : ⟨visit, visit.opening⟩ ∈ start.ledger.filterMap Extent.mark?)
    (h : Consults Machine.InContext (fun _ => True) start now) :
    ∃ news, now.machine.told = news ++ start.machine.told ∧
      Tale visit start now (visit.opening.past ++ lifeOf visit.id news) := by
  induction h with
  | refl =>
      exact ⟨[], rfl, (List.append_nil visit.opening.past).symm ▸
        .stays hOpen (allows_opening visit)⟩
  | tail before onward ih =>
      obtain ⟨deed, hOnward⟩ := onward
      obtain ⟨news, hTold, hTale⟩ := ih
      have hAttended := Consults.attended before (fun _ _ hAllowed => hAllowed.1) hStart
      have hNext := (hOnward.acts (fun _ _ hAllowed => hAllowed.1)
        hAttended.toRecorded).told
      refine ⟨deed.moved ++ news, by rw [hNext, hTold, List.append_assoc], ?_⟩
      rw [lifeOf_append, ← List.append_assoc]
      exact hTale.next hAttended before hOnward

/-- The tale of a region is what became of its mark. -/
private theorem Tale.fared (h : Tale visit start now life)
    (hRecorded : Recorded now.machine now.ledger) : Fared visit start now life := by
  cases h with
  | stays hMark allowed =>
      cases hContext : now.machine.context with
      | none =>
          rw [hRecorded.stands.closed hContext] at hMark
          cases hMark
      | some context =>
          exact .stays hContext (hRecorded.marked context hContext ▸ hMark) allowed
  | gone unmarked given ended =>
      exact .gone
        (fun context hContext => hRecorded.marked context hContext ▸ unmarked) ended

/-- A protected region that has ended has cleaned up once. -/
private theorem Fared.count_cleanup (h : Fared visit start now life)
    (isProtected : visit.explicit = false) (hGone : now.machine.HasNoMark visit.id) :
    life.count .cleanup = 1 := by
  cases h with
  | stays hContext hMark allowed => exact absurd rfl (hGone _ hContext _ hMark)
  | gone unmarked ended =>
      cases ended with
      | @left _ _ _ state => cases state <;> rfl
      | abandoned before isExplicit => cases isExplicit.symm.trans isProtected

end

/-- In a run that closes in turn, code runs only in regions whose body or handler it is
in, or that have called it while they try their clauses and are matching. A region is
handling exactly as long as a handler of it is there. A region that is entered tells of
its states in order: an explicit one until it is left or abandoned, a protected one
until it is left, from whatever state, and then it has cleaned up once. The tale of a
region is told as long as no other context is opened; and when one is, no region has a
mark, so all that were entered have had their lives.

The destructors of what an unwinding drops, and the code that regions call while they
try their clauses, may do anything. What they do appears in the tales of their own
regions, and in none of the others. -/
theorem lives_in_order {process : Process} {auto : Bool} {limits : Option Limits}
    {body : List (Stmt ν)} {now : Situation ν}
    (h : Consults Machine.InTurn (fun _ => True) (.start process auto limits body)
      now) :
    (∀ context, now.machine.context = some context → now.KeepsStates context) ∧
      (∀ visit next, Onward Machine.InTurn (fun _ => True) now (.enters visit) next →
        ∀ after, Consults Machine.InContext (fun _ => True) next after →
          ∃ news, after.machine.told = news ++ now.machine.told ∧
            Fared visit next after (lifeOf visit.id news) ∧
            (visit.explicit = false → after.machine.HasNoMark visit.id →
              (lifeOf visit.id news).count .cleanup = 1)) ∧
      ∀ next, Onward Machine.InTurn (fun _ => True) now .opens next →
        ∀ id, now.machine.HasNoMark id := by
  have hTurn (m : Machine ν) (ledger : List Extent) (hAllowed : m.InTurn ledger) :
      m.InTurn ledger := hAllowed
  have hNow :=
    Consults.attended h hTurn (lively_start process auto limits body).attended
  refine ⟨fun context hContext => hNow.keepsStates hContext,
    fun visit next hEnters after hAfter => ?_,
    fun next hOpens id context hContext => ?_⟩
  · have hActs := hEnters.acts hTurn hNow.toRecorded
    have hEntered := hEnters.attended hTurn hNow
    obtain ⟨news, hTold, hTale⟩ := tale_of_consults hEntered hActs.marked hAfter
    rw [hActs.told] at hTold
    have hLife : lifeOf visit.id (news ++ (Deed.enters visit).moved) =
        visit.opening.past ++ lifeOf visit.id news := by
      rw [lifeOf_append, lifeOf_enters]
    have hFared := hTale.fared
      (Consults.attended hAfter (fun _ _ hAllowed => hAllowed.1) hEntered).toRecorded
    rw [← hLife] at hFared
    exact ⟨news ++ (Deed.enters visit).moved, by rw [hTold, List.append_assoc], hFared,
      hFared.count_cleanup⟩
  · cases hContext.symm.trans (hOpens.acts hTurn hNow.toRecorded).opens

/-- The region that the next step enters. -/
def Machine.enters? (m : Machine ν) : Option Visit :=
  match m.deed with
  | .enters visit => some visit
  | _ => none

private theorem Machine.of_enters? {m : Machine ν} {visit : Visit}
    (h : m.enters? = some visit) : m.deed = .enters visit := by
  unfold enters? at h
  split at h
  · next hDeed =>
      cases h
      exact hDeed
  · cases h

/-- Whether code has ended with a value. -/
def Machine.hasDelivered (m : Machine ν) : Bool :=
  match m.focus with
  | .deliver _ => true
  | _ => false

private theorem Machine.focus_of_hasDelivered {m : Machine ν}
    (h : m.hasDelivered = true) : ∃ value, m.focus = .deliver value := by
  unfold hasDelivered at h
  split at h
  · next value hFocus => exact ⟨value, hFocus⟩
  · cases h

/-- A guard scope with one body, in code that has nothing to do with the region
around. -/
def guarding : List (Stmt Nat) :=
  [.acquire "guard" (.guards ⟨"main", 4, "drop"⟩) 1, .guard "guard" .always [.depths]]

/-- The law speaks of the region of `catching`, which has been left once its handler has
returned. It has called code while it tried its clauses, and a guard body has run in
that code. -/
theorem lives_in_order_catching :
    ∃ (now next after : Situation Nat) (visit : Visit)
      (news : List (Nat × RegionState)),
      Consults Machine.InTurn (fun _ => True) (.start {} true none catching) now ∧
        Onward Machine.InTurn (fun _ => True) now (.enters visit) next ∧
        Consults Machine.InContext (fun _ => True) next after ∧
        after.machine.told = news ++ now.machine.told ∧
        lifeOf visit.id news =
          [.entered, .dispatching, .matching, .handling, .cleanup, .outside] ∧
        Fared visit next after (lifeOf visit.id news) := by
  let hasLived (visit : Visit) (m after : Machine Nat) (_ : List Extent) : Bool :=
    decide (lifeOf visit.id (after.told.take (after.told.length - m.told.length)) =
      [.entered, .dispatching, .matching, .handling, .cleanup, .outside])
  let goesOn (visit : Visit) (m : Machine Nat) (inquiry : Inquiry Nat)
      (last : Machine Nat) (left : List Extent) : Bool :=
    last.hasDelivered && decide (inquiry.Ends last left) &&
      (follow Machine.InContext 7
        (last.goto (.offer inquiry.region inquiry.exception)) left).any fun after =>
          hasLived visit m after.1 after.2
  obtain ⟨m, ledger, hReaches, hTest⟩ := Reaches.of_follow 1
    (fun (m : Machine Nat) ledger => decide (m.InTurn ledger) && !m.step.poisoned &&
      m.enters?.any fun visit =>
        (follow Machine.InContext 12 m.step (m.move.apply ledger)).any fun before =>
          before.1.offers?.any fun offered =>
            let inquiry := before.1.inquiry offered.1 offered.2
            (follow (fun m ledger => m.InContext ledger ∧
                Situation.Inside ⟨m, ledger, [inquiry]⟩) 17
              (before.1.interject guarding) before.2).any fun after =>
                goesOn visit m inquiry after.1 after.2)
    (show (follow Machine.InTurn 1 (.start {} true none catching)
      (Machine.start {} true none catching).opened).any _ = true by decide +kernel)
  simp only [Bool.and_eq_true, Bool.not_eq_true', decide_eq_true_eq] at hTest
  obtain ⟨⟨hTurn, hGoesOn⟩, hEnters⟩ := hTest
  obtain ⟨visit, hVisit, hFollow⟩ := (Option.any_eq_true _ _).1 hEnters
  obtain ⟨inquiry, last, left, hLast, hLeft⟩ :=
    Consults.of_follow (fun _ => True) 12 17 guarding (goesOn visit m) hFollow
  simp only [goesOn, Bool.and_eq_true, decide_eq_true_eq] at hLeft
  obtain ⟨⟨hDelivered, hEnds⟩, hRest⟩ := hLeft
  obtain ⟨value, hDelivers⟩ := Machine.focus_of_hasDelivered hDelivered
  obtain ⟨after, held, hAfter, hLife⟩ := Reaches.of_follow 7 (hasLived visit m) hRest
  have hOnward : Onward Machine.InTurn (fun _ => True) ⟨m, ledger, []⟩ (.enters visit)
      ⟨m.step, m.move.apply ledger, []⟩ := by
    rw [← Machine.of_enters? hVisit]
    exact .step hTurn hGoesOn fun _ hNone => by cases hNone
  have hConsults :=
    (hLast.tail ⟨_, .answers hDelivers hEnds⟩).trans hAfter.unfolds.consults
  obtain ⟨news, hTold, hFared, -⟩ :=
    (lives_in_order hReaches.unfolds.consults).2.1 visit _ hOnward _ hConsults
  dsimp only [hasLived] at hLife hTold
  rw [decide_eq_true_eq, hTold, List.length_append, Nat.add_sub_cancel,
    List.take_left] at hLife
  exact ⟨_, _, _, visit, news, hReaches.unfolds.consults, hOnward, hConsults, hTold,
    hLife, hFared⟩

/-! ## What the law is silent about -/

namespace Machine

/-- The innermost region that has a mark. -/
def innermost? (m : Machine ν) : Option Region :=
  m.context.bind fun context => context.regions.live.head?

/-- The guard body that begins next, by the mark that it gets. -/
def shields? (m : Machine ν) : Option Nat :=
  match m.deed with
  | .shields mark => some mark
  | _ => none

/-- The region that a raise abandons next, on its way. -/
def raiseAbandons? (m : Machine ν) : Option Visit :=
  match m.control.head?, m.deed with
  | some (.unwinding .raise), .abandons visit => some visit
  | _, _ => none

end Machine

/-- Code that a region calls while it tries its clauses may run a guard body, and the
region is neither dispatching nor handling then. And an explicit region that was opened
while the thread unwound counts as abandoned when a raise leaves it, so it never cleans
up.

The first program is one in which a region catches, and the region calls the code of a
guard scope. In the second no code is called. -/
theorem guardBody_while_matching :
    (∃ (now : Situation Nat) (visit : Visit) (mark : Nat),
      Consults Machine.InTurn (fun _ => True) (.start {} true none catching) now ∧
        now.machine.shields? = some mark ∧ now.machine.step.poisoned = false ∧
        now.machine.innermost? = some ⟨visit, .matching⟩ ∧ visit.explicit = false) ∧
    ∃ m ledger visit,
      Reaches Machine.InTurn (.start {} true none staleRegion)
        (Machine.start {} true none staleRegion).opened m ledger ∧
      m.raiseAbandons? = some visit ∧ m.step.poisoned = false := by
  constructor
  · let isShielding (inquiry : Inquiry Nat) (m : Machine Nat) (_ : List Extent) :
        Bool :=
      m.shields?.isSome && !m.step.poisoned &&
        decide (m.innermost? = some ⟨inquiry.region.visit, .matching⟩) &&
        !inquiry.region.visit.explicit
    obtain ⟨inquiry, m, ledger, hConsults, hTest⟩ :=
      Consults.of_follow (fun _ => True) 14 9 guarding isShielding
        (show (follow Machine.InTurn 14 (.start {} true none catching)
          (Machine.start {} true none catching).opened).any _ = true by decide +kernel)
    simp only [isShielding, Bool.and_eq_true, Bool.not_eq_true', decide_eq_true_eq]
      at hTest
    obtain ⟨⟨⟨hShields, hGoesOn⟩, hInnermost⟩, hVisit⟩ := hTest
    obtain ⟨mark, hMark⟩ := Option.isSome_iff_exists.1 hShields
    exact ⟨_, _, mark, hConsults, hMark, hGoesOn, hInnermost, hVisit⟩
  · obtain ⟨m, ledger, hReaches, hTest⟩ := Reaches.of_follow 25
      (fun (m : Machine Nat) _ => m.raiseAbandons?.isSome && !m.step.poisoned)
      (show (follow Machine.InTurn 25 (.start {} true none staleRegion)
        (Machine.start {} true none staleRegion).opened).any _ = true by decide +kernel)
    rw [Bool.and_eq_true, Bool.not_eq_true'] at hTest
    obtain ⟨visit, hVisit⟩ := Option.isSome_iff_exists.1 hTest.1
    exact ⟨m, ledger, visit, hReaches, hVisit, hTest.2⟩

end Unwinding
