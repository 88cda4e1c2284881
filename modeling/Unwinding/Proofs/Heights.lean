import Unwinding.Proofs.Footing
import Unwinding.Proofs.Nodes

/-!
# How high the stacks are

Four of the five stacks are as high as what a thread has open says: a traced call has
put one frame on them, a region its mark and its frame, a protected region a dispatch
mark until its handler begins, a guard scope its mark, a guard body the mark that
shields it. What a handle remembers is the height of the rest. This holds in every run
that closes in turn, whatever becomes of the exceptions; only the stack of the records
may be higher than that.

## Main results

* `Machine.scopes_step` — what a step does to the guard scopes, which `Deed.Turns`
  leaves out.
* `Aligned.turns` — a deed keeps the stacks aligned with the ledger.
* `upright_of_reaches` — so does every run that closes in turn.
-/

namespace Unwinding

open Context

/-! ## Heights -/

/-- The numbers of entries on the stacks, save that of the records.

Records are counted elsewhere, since a record may outlive the region in which it was
raised, and one that was left behind belongs to no extent. -/
@[ext]
structure Heights where
  regions : Nat
  dispatch : Nat
  guards : Nat
  frames : Nat

/-- How high the stacks of an account stand, without that of the records, which goes by
other rules. -/
def Depths.heights (depths : Depths) : Heights :=
  ⟨depths.regions, depths.dispatch, depths.guards, depths.frames⟩

/-- Two accounts that agree on the heights and on the records are the same. -/
theorem Depths.eq_of_heights {now before : Depths}
    (hHeights : now.heights = before.heights)
    (hRecords : now.exceptions = before.exceptions) : now = before := by
  obtain ⟨hRegions, hDispatch, hGuards, hFrames⟩ := Heights.ext_iff.1 hHeights
  refine Depths.ext_get fun kind => ?_
  cases kind with
  | regions => exact hRegions
  | dispatch => exact hDispatch
  | guards => exact hGuards
  | frames => exact hFrames
  | exceptions => exact hRecords

/-- The heights of entries, with so many guard scopes. -/
def Entries.heights (entries : Entries) (scopes : Nat) : Heights :=
  ⟨entries.regions.length, entries.dispatch.length, scopes, entries.frames.length⟩

/-- The heights of a context are those of its entries, and of its marks of guard
scopes. -/
theorem Context.heights_eq (context : Context) :
    context.depths.heights = context.entries.heights context.guards.depth := by
  have hMeasured := context.measured
  exact Heights.ext hMeasured.regions hMeasured.dispatch rfl hMeasured.frames

namespace Extent

/-- The heights with an extent on top. -/
def onTop : Extent → Heights → Heights
  | .thread, below => below
  | .call _, below => { below with frames := below.frames + 1 }
  | .region _, below =>
      { below with regions := below.regions + 1, frames := below.frames + 1 }
  | .scope _, below => { below with guards := below.guards + 1 }
  | .guardBody _, below => { below with dispatch := below.dispatch + 1 }
  | .protecting visit phase, below =>
      { below with
        regions := below.regions + 1
        dispatch := (phase.marks visit.id).length + below.dispatch
        frames := below.frames + 1 }

/-- The depths that an extent remembers. -/
def entry? : Extent → Option Depths
  | .call entry => some entry
  | .region visit => some visit.entry
  | .protecting visit _ => some visit.entry
  | _ => none

end Extent

/-- The heights that a ledger accounts for. -/
def heights : List Extent → Heights
  | [] => ⟨0, 0, 0, 0⟩
  | extent :: rest => extent.onTop (heights rest)

/-- What each extent of a ledger remembers are the heights of the rest. -/
def Recalled : List Extent → Prop
  | [] => True
  | extent :: rest =>
      (∀ entry ∈ extent.entry?, entry.heights = heights rest) ∧ Recalled rest

/-- The stacks are as high as a ledger accounts for.

The depths that a handle remembers are compared with the depths that are there, so to
know both from the ledger is to know that the comparison succeeds. -/
structure Aligned (entries : Entries) (scopes : Nat) (ledger : List Extent) : Prop where
  counts : entries.heights scopes = heights ledger
  recalled : Recalled ledger

/-! ## Guard scopes -/

/-- What a deed does to the number of guard scopes, and how many of them it
remembers. -/
def Deed.Scopes (before after : Nat) : Deed → Prop
  | .enters visit => visit.entry.guards = before ∧ after = before
  | .entersCall entry => entry.guards = before ∧ after = before
  | .opensScope _ => after = before + 1
  | .closesScope _ => after + 1 = before
  | .abandons visit => after = min visit.entry.guards before
  | _ => after = before

/-- A deed that is nothing to the guard scopes. -/
def Deed.IsPlain : Deed → Prop
  | .enters _ => False
  | .entersCall _ => False
  | .opensScope _ => False
  | .closesScope _ => False
  | .abandons _ => False
  | _ => True

private theorem Deed.IsPlain.scopes {deed : Deed} {before after : Nat}
    (h : deed.IsPlain) (hSame : after = before) :
    deed.Scopes before after := by
  cases deed <;> first | exact hSame | exact h.elim

section

variable {context : Context}

/-- Two laws about what an operation answers. -/
theorem Ends.and_yields {α : Type} {outcome : EStateM.Result Error Context α}
    {answers more : α → Context → Prop} {fails : Error → Prop}
    (h : Ends outcome answers fails) (hMore : Yields outcome more) :
    Ends outcome (fun answer after => answers answer after ∧ more answer after)
      fails := by
  cases outcome with
  | ok answer after => exact ⟨h, hMore⟩
  | error error after => exact h

/-- An operation that neither pushes nor pops guard scopes leaves as many of them as
there were. -/
theorem guards_of_takes {α : Type} {step : Step α}
    {R : StackKind → Stock → Stock → Prop} (h : Takes R step)
    (hStill : ∀ stock left, R .guards stock left → left.depth = stock.depth) :
    Yields (step context) fun _ after => after.guards.depth = context.guards.depth := by
  have hAlong := h context
  unfold Yields
  cases hOutcome : step context with
  | ok answer after =>
      rw [hOutcome] at hAlong
      exact hStill _ _ (hAlong.stocks .guards)
  | error error after => trivial

/-- An operation that pushes on other stacks only leaves the marks of the guard scopes
as many as they are. -/
theorem guards_of_fills {α : Type} {step : Step α}
    (h : Takes (Stock.Fills fun kind => kind ≠ .guards) step) :
    Yields (step context) fun _ after => after.guards.depth = context.guards.depth :=
  guards_of_takes h fun _ _ hFills => hFills.still (by simp)

/-- So does one that pops from other stacks only. -/
theorem guards_of_empties {α : Type} {step : Step α}
    (h : Takes (Stock.Empties fun kind => kind ≠ .guards) step) :
    Yields (step context) fun _ after => after.guards.depth = context.guards.depth :=
  guards_of_takes h fun _ _ hEmpties => hEmpties.still (by simp)

/-- A region remembers how many guard scopes there were when it was entered. -/
theorem guards_enter {site : Site} {explicit : Bool} :
    Yields (enter site explicit context) fun visit after =>
      visit.entry.guards = context.guards.depth ∧ after.guards.depth =
        context.guards.depth := by
  have hGuards : Yields (enter site explicit context)
      fun _ after => after.guards.depth = context.guards.depth :=
    guards_of_fills (fills_enter (by simp) (by simp) (by simp))
  refine (Ends.and_yields effect_enter hGuards).imp fun visit after hAfter => ?_
  obtain ⟨⟨rfl, -⟩, hSame⟩ := hAfter
  exact ⟨rfl, hSame⟩

private theorem guards_enterCall {site : Site} :
    Yields (enterCall site context) fun entry after =>
      entry.guards = context.guards.depth ∧ after.guards.depth =
        context.guards.depth := by
  refine (Ends.and_yields effect_enterCall
    (guards_of_fills (fills_enterCall (by simp)))).imp fun entry after hAfter => ?_
  obtain ⟨⟨rfl, -⟩, hSame⟩ := hAfter
  exact ⟨rfl, hSame⟩

private theorem guards_openScope {site : Site} :
    Yields (openScope site context) fun _ after => after.guards.depth =
      context.guards.depth + 1 := by
  refine ends_bind
    (ends_freshId
    (ends_bind (ends_onGuards (fun guards hPlace => ends_pure ?_) fun _ _ => trivial)))
  exact Stack.depth_of_cons (Stack.live_place hPlace).1

private theorem guards_closeScope {mark : Nat} :
    Yields (closeScope mark context) fun _ after => after.guards.depth + 1 =
      context.guards.depth := by
  refine ends_bind (ends_get ?_)
  cases context.guards.top? with
  | none => exact trivial
  | some innermost =>
      dsimp only
      split
      · refine ends_onGuards (fun guards hPop => ?_) fun _ _ => trivial
        cases hPopped : context.guards.pop with
        | error error =>
            rw [hPopped] at hPop
            cases hPop
        | ok popped =>
            rw [hPopped] at hPop
            cases hPop
            exact (Stack.depth_of_cons (Stack.live_pop hPopped).1).symm
      · exact ends_fail trivial

/-- An explicit region that is abandoned takes the guard scopes along that were opened
in it. -/
theorem guards_abandon {visit : Visit} :
    Yields (abandon visit context) fun _ after => after.guards.depth =
      min visit.entry.guards context.guards.depth := by
  refine ends_bind (ends_get (ends_bind (ends_note ?_)))
  refine ends_bind ((guards_of_empties (empties_releaseRecords (by simp))).imp
    fun _ freed hFreed => ?_)
  refine ends_bind ((guards_of_fills (takes_detachAbove _)).imp
    fun _ settled hSettled => ?_)
  refine ends_bind (ends_onRegions (fun regions _ => ?_) fun _ _ => trivial)
  refine ends_bind (ends_onDispatch (fun dispatch _ => ?_) fun _ _ => trivial)
  refine ends_bind (ends_onGuards (fun guards hOk => ?_) fun _ _ => trivial)
  cases hOk
  refine ends_bind ((guards_of_empties (empties_reconcileFrames (by simp))).imp
    fun _ cut hCut => ?_)
  have hAfter : cut.guards.depth = min visit.entry.guards context.guards.depth := by
    rw [hCut]
    change min visit.entry.guards settled.guards.depth = _
    rw [hSettled, hFreed]
  refine ends_bind (ends_get ?_)
  cases reporter? cut with
  | none => exact ends_fail trivial
  | some owner =>
      refine ends_bind (ends_get ?_)
      split
      · exact ends_note hAfter
      · exact ends_modify hAfter

end

namespace Machine

variable {ν : Type} {m : Machine ν} {before after : Context}

/-- A step is due that opens no guard scope, closes none and abandons no region. -/
def SparesScopes (m : Machine ν) : Prop :=
  match m.focus with
  | .exec (.guard name _ _) =>
      ∀ scope, Handle.find? name m.control = some (.guards scope) → scope.mark ≠ none
  | .leaveScope scope => scope.bodies ≠ []
  | .drop (.region _ inUnwinding) => (m.isPanicking && !inUnwinding) = true
  | _ => True

private theorem guards_kept (hBefore : m.context = some before)
    (hAfter : m.step.context = some after) (hSpares : m.SparesScopes) :
    after.guards.depth = before.guards.depth := by
  unfold SparesScopes at hSpares
  cases (leads_step m).carries hBefore hAfter with
  | keeps => rfl
  | annotates => rfl
  | @performs operation calls =>
      have hStocks := (operation.takes_step before).stocks .guards
      cases calls with
      | openScope hFocus hFind hMark =>
          simp only [hFocus] at hSpares
          exact absurd hMark (hSpares _ hFind)
      | closeScope hFocus hBodies =>
          simp only [hFocus] at hSpares
          exact absurd hBodies hSpares
      | abandon hFocus isLeft =>
          simp only [hFocus] at hSpares
          cases isLeft.symm.trans hSpares
      | forward hFocus =>
          obtain hSame | ⟨hKind, -⟩ := hStocks
          · exact congrArg Stock.depth hSame
          · cases hKind
      | _ => exact hStocks.still (by simp)

/-- So its deed does nothing to the scopes either, if it is nothing to them. -/
theorem scopes_spared (hBefore : m.context = some before)
    (hAfter : m.step.context = some after) (hDeed : m.deed.IsPlain)
    (hSpares : m.SparesScopes) : m.deed.Scopes before.guards.depth after.guards.depth :=
  hDeed.scopes (guards_kept hBefore hAfter hSpares)

private theorem plain_answering {α : Type} {step : Step α} {deed : α → Deed}
    (hDeed : ∀ answer, (deed answer).IsPlain) :
    (m.answering step deed).IsPlain := by
  unfold answering
  split
  · trivial
  · split
    · exact hDeed _
    · trivial

private theorem plain_closing (m : Machine ν) : m.closing.IsPlain := by
  unfold closing
  split <;> trivial

/-- A step on the context does to the scopes what its operation does. -/
theorem scopes_performed {α : Type} {step : Step α} {next : Machine ν → α → Machine ν}
    {deed : α → Deed} (hStep : m.step = m.perform step next)
    (hDeed : ∀ context answer left, m.context = some context →
      step context = .ok answer left → m.deed = deed answer)
    (hNext : ∀ stored answer, (next stored answer).context = stored.context)
    (hScopes : ∀ context, Yields (step context) fun answer left =>
      (deed answer).Scopes context.guards.depth left.guards.depth)
    (hBefore : m.context = some before) (hAfter : m.step.context = some after)
    (hGoesOn : m.step.poisoned = false) :
    m.deed.Scopes before.guards.depth after.guards.depth := by
  rw [hStep] at hGoesOn hAfter
  obtain ⟨context, answer, left, hContext, hOk, hPerformed⟩ := perform_goesOn hGoesOn
  obtain rfl := Option.some.inj (hBefore.symm.trans hContext)
  rw [hPerformed, hNext] at hAfter
  obtain rfl := Option.some.inj hAfter
  rw [hDeed before answer left hContext hOk]
  have hDone := (hScopes before).of_ok hOk
  exact hDone

private theorem scopes_exec {stmt : Stmt ν} (hFocus : m.focus = .exec stmt)
    (hBefore : m.context = some before) (hAfter : m.step.context = some after)
    (hGoesOn : m.step.poisoned = false) :
    m.deed.Scopes before.guards.depth after.guards.depth := by
  have plain (hDeed : (m.deedOf stmt).IsPlain) (hSpares : m.SparesScopes) :
      m.deed.Scopes before.guards.depth after.guards.depth := by
    refine scopes_spared hBefore hAfter ?_ hSpares
    simp only [deed, hFocus]
    exact hDeed
  have hStep : m.step = m.exec stmt := by simp only [step, hFocus]
  cases stmt with
  | acquire name opening times =>
      cases times with
      | zero =>
          exact plain (by simp only [deedOf]; trivial) (by simp [SparesScopes, hFocus])
      | succ times =>
          cases opening with
          | thread limits =>
              refine plain ?_ (by simp [SparesScopes, hFocus])
              simp only [deedOf]
              split <;> trivial
          | region site =>
              have hPerform : m.step = m.perform (enter site true) fun stored visit =>
                  (stored.own name (.region visit stored.isPanicking)).goto
                    (.exec (.acquire name (.region site) times)) := hStep
              have hDeed : m.deed = m.answering (enter site true) .enters := by
                simp only [deed, hFocus, deedOf]
              exact scopes_performed hPerform
                (fun _ _ _ hContext hOk => hDeed.trans (answering_ok hContext hOk))
                (fun _ _ => context_own _ _ _) (fun _ => guards_enter) hBefore hAfter
                  hGoesOn
          | call site =>
              have hPerform : m.step = m.perform (enterCall site) fun stored entry =>
                  (stored.own name (.call entry stored.isPanicking)).goto
                    (.exec (.acquire name (.call site) times)) := hStep
              have hDeed : m.deed = m.answering (enterCall site) .entersCall := by
                simp only [deed, hFocus, deedOf]
              exact scopes_performed hPerform
                (fun _ _ _ hContext hOk => hDeed.trans (answering_ok hContext hOk))
                (fun _ _ => context_own _ _ _) (fun _ => guards_enterCall)
                  hBefore hAfter hGoesOn
          | guards site => exact plain trivial (by simp [SparesScopes, hFocus])
  | protect levels site mode clauses body =>
      simp only [exec, protect] at hStep
      have hDeed : m.deed = m.answering (enter site false) .enters := by
        simp only [deed, hFocus, deedOf]
      refine scopes_performed hStep
        (fun _ _ _ hContext hOk => hDeed.trans (answering_ok hContext hOk))
        (fun stored visit => ?_)
        (fun _ => guards_enter) hBefore hAfter hGoesOn
      split <;> rfl
  | guard name flavor body =>
      cases hFind : Handle.find? name m.control with
      | none =>
          exact plain (by simp only [deedOf, hFind]; trivial)
            (by simp [SparesScopes, hFocus, hFind])
      | some handle =>
          cases handle with
          | guards scope =>
              cases hMark : scope.mark with
              | some mark =>
                  exact plain (by simp [deedOf, hFind, hMark, Deed.IsPlain])
                    (by simp [SparesScopes, hFocus, hFind, hMark])
              | none =>
                  have hPerform : m.step = m.perform (openScope scope.site)
                    fun stored mark =>
                      let registered := scope.register mark flavor body
                      ({ stored with
                         control :=
                           Handle.put name (.guards registered) stored.control } :
                        Machine ν).answer (.registered registered.count) := by
                    rw [hStep]
                    simp only [exec, registerGuard, hFind, hMark]
                  have hDeed :
                      m.deed = m.answering (openScope scope.site) .opensScope := by
                    simp [deed, hFocus, deedOf, hFind, hMark]
                  exact scopes_performed hPerform
                    (fun _ _ _ hContext hOk => hDeed.trans (answering_ok hContext hOk))
                    (fun _ _ => rfl) (fun _ => guards_openScope) hBefore hAfter hGoesOn
          | _ =>
              exact plain (by simp only [deedOf, hFind]; trivial)
                (by simp [SparesScopes, hFocus, hFind])
  | release name how =>
      refine plain ?_ (by simp [SparesScopes, hFocus])
      simp only [deedOf]
      split
      · trivial
      · exact plain_closing m
      · trivial
  | annotate text =>
      refine plain ?_ (by simp [SparesScopes, hFocus])
      simp only [deedOf]
      split <;> trivial
  | _ => exact plain trivial (by simp [SparesScopes, hFocus])

/-- What a step does to the guard scopes. -/
theorem scopes_step (hClear : m.poisoned = false) (hBefore : m.context = some before)
    (hAfter : m.step.context = some after) (hGoesOn : m.step.poisoned = false) :
    m.deed.Scopes before.guards.depth after.guards.depth := by
  cases hFocus : m.focus with
  | exec stmt => exact scopes_exec hFocus hBefore hAfter hGoesOn
  | leaveScope scope =>
      cases hBodies : scope.bodies with
      | nil =>
          have hPerform : m.step = m.perform (closeScope scope.mark) fun stored _ =>
              stored.goto .next := by
            simp only [step, hFocus, leaveScope, hBodies]
          have hDeed : m.deed = .closesScope scope.mark := by
            simp only [deed, hFocus, hBodies]
          exact scopes_performed hPerform (fun _ _ _ _ _ => hDeed) (fun _ _ => rfl)
            (fun _ => guards_closeScope) hBefore hAfter
            hGoesOn
      | cons registered bodies =>
          refine scopes_spared hBefore hAfter ?_
            (by simp [SparesScopes, hFocus, hBodies])
          simp only [deed, hFocus, hBodies]
          split <;> trivial
  | drop handle =>
      cases handle with
      | region visit inUnwinding =>
          cases hLeaves : m.isPanicking && !inUnwinding with
          | true =>
              refine scopes_spared hBefore hAfter ?_
                (by simpa only [SparesScopes, hFocus] using hLeaves)
              simp only [deed, hFocus, hLeaves, if_true]
              trivial
          | false =>
              have hPerform : m.step = m.perform (abandon visit) fun stored _ =>
                  stored.goto .next := by
                simp only [step, hFocus, drop, hClear, hLeaves, Bool.false_eq_true,
                  if_false]
              have hDeed : m.deed = .abandons visit := by
                simp only [deed, hFocus, hLeaves, Bool.false_eq_true, if_false]
              exact scopes_performed hPerform (fun _ _ _ _ _ => hDeed) (fun _ _ => rfl)
                (fun _ => guards_abandon) hBefore hAfter
                hGoesOn
      | thread =>
          exact scopes_spared hBefore hAfter
            (by simp only [deed, hFocus]; exact plain_closing m)
            (by simp [SparesScopes, hFocus])
      | call entry inUnwinding =>
          exact scopes_spared hBefore hAfter (by simp only [deed, hFocus]; trivial)
            (by simp [SparesScopes, hFocus])
      | guards scope =>
          exact scopes_spared hBefore hAfter (by simp only [deed, hFocus]; trivial)
            (by simp [SparesScopes, hFocus])
  | deliver value =>
      refine scopes_spared hBefore hAfter ?_ (by simp [SparesScopes, hFocus])
      simp only [deed, hFocus]
      split
      · refine plain_answering fun escape => ?_
        cases escape <;> trivial
      · trivial
      · exact plain_closing m
      · trivial
  | unwind payload =>
      refine scopes_spared hBefore hAfter ?_ (by simp [SparesScopes, hFocus])
      simp only [deed, hFocus]
      split
      · split
        · exact plain_answering fun _ => trivial
        · trivial
      · trivial
      · split <;> trivial
      · exact plain_closing m
      · trivial
  | offer region exception =>
      refine scopes_spared hBefore hAfter ?_ (by simp [SparesScopes, hFocus])
      simp only [deed, hFocus]
      split <;> trivial
  | write raising pieces =>
      refine scopes_spared hBefore hAfter ?_ (by simp [SparesScopes, hFocus])
      simp only [deed, hFocus]
      split <;> trivial
  | _ =>
      exact scopes_spared hBefore hAfter (by simp only [deed, hFocus]; trivial)
        (by simp [SparesScopes, hFocus])

end Machine

/-! ## One deed -/

section

variable {before after : Entries} {scopes left : Nat} {ledger : List Extent}
    {deed : Deed}

private theorem Aligned.regions (h : Aligned before scopes ledger) :
    before.regions.length = (heights ledger).regions :=
  congrArg Heights.regions h.counts

private theorem Aligned.dispatch (h : Aligned before scopes ledger) :
    before.dispatch.length = (heights ledger).dispatch :=
  congrArg Heights.dispatch h.counts

/-- There are as many marks of guard scopes as scopes open on the ledger. -/
theorem Aligned.guards (h : Aligned before scopes ledger) :
    scopes = (heights ledger).guards :=
  congrArg Heights.guards h.counts

/-- There are as many frames as the ledger says. -/
theorem Aligned.frames (h : Aligned before scopes ledger) :
    before.frames.length = (heights ledger).frames :=
  congrArg Heights.frames h.counts

/-- What is measured before a deed are the heights of the ledger. -/
theorem Aligned.measured {depths : Depths} (h : Aligned before scopes ledger)
    (hMeasured : before.Measured depths) (hGuards : depths.guards = scopes) :
    depths.heights = heights ledger :=
  Heights.ext (hMeasured.regions.trans h.regions) (hMeasured.dispatch.trans h.dispatch)
    (hGuards.trans h.guards) (hMeasured.frames.trans h.frames)

private theorem aligned_new : Aligned .empty 0 [.thread] :=
  ⟨rfl, by simp [Extent.entry?], trivial⟩

/-- A protected region goes on to another phase, with the dispatch marks of that
phase. -/
theorem Aligned.phase {visit : Visit} {old new : Phase} {rest : List Extent}
    (h : Aligned before scopes (.protecting visit old :: rest))
    (hRegions : after.regions.length = before.regions.length)
    (hFrames : after.frames = before.frames)
    (hDispatch : after.dispatch.length + (old.marks visit.id).length =
      before.dispatch.length + (new.marks visit.id).length) :
    Aligned after scopes (.protecting visit new :: rest) := by
  have hMarks : before.dispatch.length = (old.marks visit.id).length +
      (heights rest).dispatch := h.dispatch
  refine ⟨Heights.ext (hRegions.trans h.regions)
    ?_ h.guards ((congrArg List.length hFrames).trans h.frames), h.recalled⟩
  change after.dispatch.length = (new.marks visit.id).length + (heights rest).dispatch
  omega

/-- A region that is left gives back its marks and its frame. -/
theorem Aligned.leaves {visit : Visit} {unwinding : Bool}
    (h : Aligned before scopes ledger) (hNested : Nested .thread ledger before)
    (hFits : (Deed.leaves visit unwinding .nothing).Fits ledger) :
    Aligned (before.leave visit unwinding) scopes ledger.tail := by
  have hRegions : (before.leave visit unwinding).regions.length =
      before.regions.length - 1 := List.length_tail
  have hFrames : (before.leave visit unwinding).frames.length =
      before.frames.length - 1 := List.length_tail
  have hDispatch : (before.leave visit unwinding).dispatch =
      dropOwn visit before.dispatch := rfl
  obtain ⟨floor, hLayered, -⟩ := hNested
  obtain hRegion | ⟨phase, hProtecting⟩ := hFits
  · obtain ⟨rest, rfl⟩ := List.head?_eq_some_iff.1 hRegion
    obtain ⟨_, _, -, -, -, hExplicit, -⟩ := hLayered.of_region Ground.firm_thread
    rw [dropOwn_of_explicit _ hExplicit] at hDispatch
    refine ⟨Heights.ext ?_ ?_ h.guards ?_, h.recalled.2⟩
    · exact hRegions.trans (by rw [h.regions]; rfl)
    · exact (congrArg List.length hDispatch).trans h.dispatch
    · exact hFrames.trans (by rw [h.frames]; rfl)
  · obtain ⟨rest, rfl⟩ := List.head?_eq_some_iff.1 hProtecting
    obtain ⟨_, marks, _, -, hMarks, hBelow, -, hProtected, -⟩ :=
      hLayered.of_protecting Ground.firm_thread
    rw [hMarks, dropOwn_marks phase hProtected (hBelow.owner_lt Ground.firm_thread)]
      at hDispatch
    have hCount : before.dispatch.length = (phase.marks visit.id).length +
        (heights rest).dispatch := h.dispatch
    rw [hMarks, List.length_append] at hCount
    refine ⟨Heights.ext ?_ ?_ h.guards ?_, h.recalled.2⟩
    · exact hRegions.trans (by rw [h.regions]; rfl)
    · refine (congrArg List.length hDispatch).trans ?_
      change marks.length = (heights rest).dispatch
      omega
    · exact hFrames.trans (by rw [h.frames]; rfl)

/-- A region that is abandoned is cut away with all that lay on what it found. -/
theorem Aligned.abandons {visit : Visit} {frames : List Frame}
    (h : Aligned before scopes ledger) (hFits : (Deed.abandons visit).Fits ledger)
    (hCount : frames.length = visit.entry.frames) :
    Aligned (before.abandon visit frames) (min visit.entry.guards scopes)
      ledger.tail := by
  obtain ⟨rest, rfl⟩ := List.head?_eq_some_iff.1 hFits
  have hEntry := h.recalled.1 visit.entry rfl
  have hRegions : visit.entry.regions = (heights rest).regions :=
    congrArg Heights.regions hEntry
  have hDispatch : visit.entry.dispatch = (heights rest).dispatch :=
    congrArg Heights.dispatch hEntry
  have hGuards : visit.entry.guards = (heights rest).guards :=
    congrArg Heights.guards hEntry
  have hFrames : visit.entry.frames = (heights rest).frames :=
    congrArg Heights.frames hEntry
  have hAbove : before.regions.length = (heights rest).regions + 1 := h.regions
  have hMarks : before.dispatch.length = (heights rest).dispatch := h.dispatch
  have hScopes : scopes = (heights rest).guards := h.guards
  refine ⟨Heights.ext ?_ ?_ ?_ (hCount.trans hFrames), h.recalled.2⟩
  · change (before.regions.drop (before.regions.length - visit.entry.regions)).length =
      (heights rest).regions
    rw [List.length_drop]
    omega
  · change
      (before.dispatch.drop (before.dispatch.length - visit.entry.dispatch)).length =
      (heights rest).dispatch
    rw [List.length_drop]
    omega
  · change min visit.entry.guards scopes = (heights rest).guards
    omega

/-- A deed keeps the stacks aligned with the ledger. -/
theorem Aligned.turns (h : Aligned before scopes ledger)
    (hNested : Nested .thread ledger before) (hTurns : deed.Turns before after)
    (hScopes : deed.Scopes scopes left) (hFits : deed.Fits ledger) :
    Aligned after left (deed.move.apply ledger) := by
  cases hTurns with
  | quiet isQuiet =>
      cases deed with
      | closesScope mark =>
          obtain ⟨rest, rfl⟩ := List.head?_eq_some_iff.1 hFits
          have hGuards : scopes = (heights rest).guards + 1 := h.guards
          have hLeft : left + 1 = scopes := hScopes
          exact ⟨Heights.ext h.regions h.dispatch
            (by change left = (heights rest).guards; omega) h.frames, h.recalled.2⟩
      | rests => exact hScopes ▸ h
      | declines exception => exact hScopes ▸ h
      | recalls name => exact hScopes ▸ h
      | stops => exact hScopes ▸ h
      | _ => exact isQuiet.elim
  | annotates =>
      obtain rfl : left = scopes := hScopes
      exact ⟨Heights.ext h.regions h.dispatch h.guards
        (List.length_modifyHead.trans h.frames), h.recalled⟩
  | @enters _ visit state number measured =>
      obtain ⟨hGuards, rfl⟩ := hScopes
      have hEntry := h.measured measured hGuards
      have hRegions := congrArg (· + 1) h.regions
      have hFrames := congrArg (· + 1) h.frames
      simp only [Deed.move, Move.apply, entered]
      cases visit.explicit with
      | true =>
          exact ⟨Heights.ext hRegions h.dispatch h.guards hFrames, by
            rintro _ ⟨⟩; exact hEntry, h.recalled⟩
      | false =>
          have hDispatch :
              before.dispatch.length + 1 = 1 + (heights ledger).dispatch := by
              rw [h.dispatch, Nat.add_comm]
          exact ⟨Heights.ext hRegions hDispatch h.guards hFrames, by
            rintro _ ⟨⟩; exact hEntry, h.recalled⟩
  | leaves isFramed count => exact hScopes ▸ h.leaves hNested hFits
  | abandons isFramed count => exact hScopes ▸ h.abandons hFits count
  | catches innermost inFlight found =>
      obtain ⟨rest, rfl⟩ := List.head?_eq_some_iff.1 hFits
      obtain rfl : left = scopes := hScopes
      exact h.phase (congrArg List.length innermost).symm rfl rfl
  | reports innermost =>
      obtain ⟨rest, rfl⟩ := List.head?_eq_some_iff.1 hFits
      obtain rfl : left = scopes := hScopes
      exact h.phase (congrArg List.length innermost).symm rfl rfl
  | handles innermost marked own =>
      obtain ⟨rest, rfl⟩ := List.head?_eq_some_iff.1 hFits
      obtain rfl : left = scopes := hScopes
      exact h.phase (congrArg List.length innermost).symm rfl
        (congrArg List.length marked).symm
  | raises isCaught => exact hScopes ▸ ⟨h.counts, h.recalled⟩
  | forwards isCaught => exact hScopes ▸ ⟨h.counts, h.recalled⟩
  | opensScope number =>
      obtain rfl : left = scopes + 1 := hScopes
      exact ⟨Heights.ext h.regions h.dispatch (congrArg (· + 1) h.guards) h.frames, by
        rintro _ ⟨⟩, h.recalled⟩
  | shields =>
      obtain rfl : left = scopes := hScopes
      exact ⟨Heights.ext h.regions (congrArg (· + 1) h.dispatch) h.guards h.frames, by
        rintro _ ⟨⟩, h.recalled⟩
  | unshields marked =>
      obtain ⟨rest, rfl⟩ := List.head?_eq_some_iff.1 hFits
      obtain rfl : left = scopes := hScopes
      have hDispatch := h.dispatch
      rw [marked] at hDispatch
      exact ⟨Heights.ext h.regions (Nat.succ.inj hDispatch) h.guards h.frames,
        h.recalled.2⟩
  | @entersCall _ entry site measured =>
      obtain ⟨hGuards, rfl⟩ := hScopes
      have hEntry := h.measured measured hGuards
      exact ⟨Heights.ext h.regions h.dispatch h.guards (congrArg (· + 1) h.frames), by
        rintro _ ⟨⟩; exact hEntry, h.recalled⟩
  | @leavesCall _ entry above below isFramed count =>
      obtain ⟨rest, rfl⟩ := List.head?_eq_some_iff.1 hFits
      obtain rfl : left = scopes := hScopes
      have hFrames : entry.frames = (heights rest).frames :=
        congrArg Heights.frames (h.recalled.1 entry rfl)
      exact ⟨Heights.ext h.regions h.dispatch h.guards (count.trans hFrames),
        h.recalled.2⟩

end

/-! ## Runs -/

section

variable {ν : Type} {m : Machine ν} {ledger : List Extent}

/-- The state of a machine in a run that closes in turn: its stacks are nested, and as
high as the ledger accounts for. -/
structure Upright (m : Machine ν) (ledger : List Extent) : Prop where
  stands : Stands m ledger
  aligned : ∀ context, m.context = some context →
    Aligned context.entries context.guards.depth ledger

/-- Where there is a context afterwards, it was not closed, and if there was none before
it was opened. -/
theorem Deed.Acts.of_some {deed : Deed} {before : Option Entries} {after : Entries}
    (h : deed.Acts before (some after)) :
    deed ≠ .closes ∧ (before = none → deed = .opens) := by
  cases h with
  | turns hTurns =>
      refine ⟨fun hCloses => ?_, fun hNone => by cases hNone⟩
      subst hCloses
      cases hTurns with
      | quiet isQuiet => exact isQuiet
  | opens => exact ⟨by simp, fun _ => rfl⟩

/-- A context that has just been opened holds nothing. -/
theorem Machine.Leads.aligned {fresh : Machine ν} {context : Context}
    (h : fresh.Leads m) (hNone : fresh.context = none)
    (hContext : m.context = some context) :
    Aligned context.entries context.guards.depth [.thread] := by
  obtain ⟨config, limits, -, rfl⟩ := h.opened hNone hContext
  exact aligned_new

/-- A step in turn keeps every stack as high as the ledger says. -/
theorem Upright.step (h : Upright m ledger) (hTurn : m.InTurn ledger)
    (hGoesOn : m.step.poisoned = false) :
    Upright m.step (m.move.apply ledger) := by
  have hDid := Machine.did_step h.stands.clear hGoesOn
  refine ⟨h.stands.step hTurn hGoesOn, fun after hAfter => ?_⟩
  obtain ⟨hOpen, hOpens⟩ := Deed.Acts.of_some (Machine.entries?_some hAfter ▸ hDid.acts)
  rw [hDid.move]
  cases hBefore : m.context with
  | some before =>
      obtain ⟨left, hLeft, hTurns⟩ := h.stands.turns hBefore hOpen hGoesOn
      obtain rfl := Option.some.inj (hAfter.symm.trans hLeft)
      exact (h.aligned before hBefore).turns (h.stands.nested before hBefore) hTurns
        (Machine.scopes_step h.stands.clear hBefore hAfter hGoesOn)
          (h.stands.fits hTurn)
  | none =>
      obtain rfl := h.stands.closed hBefore
      rw [hOpens (by rw [Machine.entries?, hBefore]; rfl)]
      exact (Machine.leads_step m).aligned hBefore hAfter

/-- A program starts with its stacks as high as its ledger says. -/
theorem upright_start (process : Process) (auto : Bool) (limits : Option Limits)
    (body : List (Stmt ν)) :
    Upright (Machine.start process auto limits body)
      (Machine.start process auto limits body).opened := by
  refine ⟨stands_start process auto limits body, fun context hContext => ?_⟩
  obtain ⟨fresh, hNone, hLeads⟩ := Machine.leads_start process auto limits body
  rw [Machine.opened, hContext]
  exact hLeads.aligned hNone hContext

/-- In a run that closes in turn the stacks are as high as what is open says. -/
theorem upright_of_reaches {start : Machine ν} {opened : List Extent}
    (h : Reaches Machine.InTurn start opened m ledger) (hStart : Upright start opened) :
    Upright m ledger := by
  induction h with
  | start => exact hStart
  | step before isAllowed goesOn ih => exact ih.step isAllowed goesOn

end

end Unwinding
