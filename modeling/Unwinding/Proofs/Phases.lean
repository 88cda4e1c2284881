import Unwinding.Proofs.Restoration
import Unwinding.Proofs.Stages

/-!
# The phases of regions

In a run that closes in turn, the mark of every open region is in the state that the
ledger says: an explicit region has been entered, and a protected region is as far as
its code is. The ledger, the marks, the code and what has been told are records of the
same thing, and every step keeps them in step with each other.

## Main results

* `Restages.staged` — the code that is in regions and the phases of the ledger stay in
  step.
* `Deed.Fits.marks`, `marked_step` — what a deed does to the marks; the region stack
  holds those that the ledger says.
* `Recorded.step`, `Lively.step` — one step in turn keeps all the records in step.
-/

namespace Unwinding

open Context

variable {ν : Type}

/-! ## Stages and phases -/

/-- A protected region of the ledger, and how far it is. -/
def Extent.phase? : Extent → Option (Visit × Phase)
  | .protecting visit phase => some (visit, phase)
  | _ => none

/-- The code of a region is where it has to be at a phase. What has returned may have
been the body or a handler. -/
def Position.Fits : Position → Phase → Prop
  | .body, .body => True
  | .clauses, .clauses _ => True
  | .declined, .clauses _ => True
  | .returned, .body => True
  | .returned, .handler _ => True
  | .handler, .handler _ => True
  | _, _ => False

/-- The protected regions that code is in are those of the ledger, and their code is as
far as they are. -/
def Staged (stages : List Stage) (ledger : List Extent) : Prop :=
  List.Forall₂
    (fun (stage : Stage) region => stage.visit = region.1 ∧
    stage.position.Fits region.2) stages
    (ledger.filterMap Extent.phase?)

section

variable {ledger : List Extent} {stages : List Stage}

private theorem mem_phases {visit : Visit} {phase : Phase} :
    (visit, phase) ∈ ledger.filterMap Extent.phase? ↔
      .protecting visit phase ∈ ledger := by
  rw [List.mem_filterMap]
  constructor
  · rintro ⟨extent, hMem, hPhase⟩
    cases extent <;> cases hPhase
    exact hMem
  · exact fun hMem => ⟨_, hMem, rfl⟩

/-- Of two lists that go together, entry by entry, each entry of the first has its
partner in the second. -/
theorem exists_partner {α β : Type} {R : α → β → Prop} {these : List α} {those : List β}
    (h : List.Forall₂ R these those) {this : α} (hMem : this ∈ these) :
    ∃ that ∈ those, R this that := by
  induction h with
  | nil => cases hMem
  | @cons head partner these those hHead hRest ih =>
      rcases List.mem_cons.1 hMem with rfl | hBelow
      · exact ⟨partner, List.mem_cons_self, hHead⟩
      · obtain ⟨that, hThat, hRel⟩ := ih hBelow
        exact ⟨that, List.mem_cons_of_mem _ hThat, hRel⟩

/-- The region of a stage is open. -/
theorem Staged.of_stage (h : Staged stages ledger) {stage : Stage}
    (hMem : stage ∈ stages) :
    ∃ phase, .protecting stage.visit phase ∈ ledger ∧ stage.position.Fits phase := by
  obtain ⟨⟨visit, phase⟩, hRegion, rfl, hFits⟩ := exists_partner h hMem
  exact ⟨phase, mem_phases.1 hRegion, hFits⟩

/-- Code is in every protected region that is open. -/
theorem Staged.of_phase (h : Staged stages ledger) {visit : Visit} {phase : Phase}
    (hMem : .protecting visit phase ∈ ledger) :
    ∃ position, ⟨visit, position⟩ ∈ stages ∧ position.Fits phase := by
  have hFlipped : List.Forall₂ (flip _) (ledger.filterMap Extent.phase?) stages :=
    h.flip
  obtain ⟨⟨_, position⟩, hStage, rfl, hFits⟩ :=
    exists_partner hFlipped (mem_phases.2 hMem)
  exact ⟨position, hStage, hFits⟩

/-- A deed keeps the code that is in regions and the phases of the ledger in step. What
a silent deed closes is no protected region. -/
theorem Restages.staged {closing : Option Extent} {deed : Deed}
    {before after : List Stage} (h : Restages closing deed before after)
    (hFits : deed.Fits ledger)
    (hClosing : ∀ extent, closing = some extent → ledger.head? = some extent)
    (hSplit : ∀ visit phase, .region visit ∈ ledger → .protecting visit phase ∉ ledger)
    (hStaged : Staged before ledger) :
    Staged after (deed.move.apply ledger) := by
  cases h with
  | silent isSilent =>
      have closes {extent : Extent} (hHead : ledger.head? = some extent)
        (hPhase : extent.phase? = none) :
          Staged before ledger.tail := by
        obtain ⟨rest, rfl⟩ := List.head?_eq_some_iff.1 hHead
        rw [Staged, List.filterMap_cons_none hPhase] at hStaged
        exact hStaged
      cases deed with
      | closes => exact closes hFits rfl
      | abandons visit => exact closes hFits rfl
      | closesScope mark => exact closes hFits rfl
      | unshields mark => exact closes hFits rfl
      | leavesCall entry => exact closes hFits rfl
      | declines exception => exact isSilent.elim
      | enters visit => exact isSilent.elim
      | leaves visit unwinding fate => exact isSilent.elim
      | catches visit exception => exact isSilent.elim
      | reports visit exception => exact isSilent.elim
      | handles visit exception name => exact isSilent.elim
      | _ => exact hStaged
  | @enters visit _ isProtected =>
      rw [Deed.move, entered, if_neg (by simp [isProtected])]
      exact .cons ⟨rfl, trivial⟩ hStaged
  | @opens visit _ isExplicit =>
      rw [Deed.move, entered, if_pos isExplicit]
      exact hStaged
  | @leaves visit unwinding fate position stages =>
      obtain hRegion | ⟨phase, hHead⟩ := hFits
      · obtain ⟨phase, hOpen, -⟩ := hStaged.of_stage List.mem_cons_self
        exact (hSplit visit phase (List.mem_of_head? hRegion) hOpen).elim
      · obtain ⟨rest, rfl⟩ := List.head?_eq_some_iff.1 hHead
        cases hStaged with
        | cons _ hRest => exact hRest
  | gives isGiven =>
      obtain ⟨rest, rfl⟩ := List.head?_eq_some_iff.1 (hClosing _ isGiven)
      exact hStaged
  | catches =>
      obtain ⟨rest, rfl⟩ := List.head?_eq_some_iff.1 hFits
      cases hStaged with
      | cons hTop hRest => exact .cons ⟨rfl, trivial⟩ hRest
  | reports =>
      obtain ⟨rest, rfl⟩ := List.head?_eq_some_iff.1 hFits
      cases hStaged with
      | cons hTop hRest => exact .cons ⟨rfl, trivial⟩ hRest
  | handles =>
      obtain ⟨rest, rfl⟩ := List.head?_eq_some_iff.1 hFits
      cases hStaged with
      | cons hTop hRest => exact .cons ⟨rfl, trivial⟩ hRest
  | declines =>
      unfold Staged at hStaged ⊢
      change List.Forall₂ _ _ (ledger.filterMap Extent.phase?)
      generalize ledger.filterMap Extent.phase? = regions at hStaged ⊢
      cases hStaged with
      | @cons _ region _ _ hTop hRest =>
          refine .cons ⟨hTop.1, ?_⟩ hRest
          obtain ⟨visit, phase⟩ := region
          cases phase <;> exact hTop.2
  | @returns visit position stages isRun =>
      unfold Staged at hStaged ⊢
      change List.Forall₂ _ _ (ledger.filterMap Extent.phase?)
      generalize ledger.filterMap Extent.phase? = regions at hStaged ⊢
      cases hStaged with
      | @cons _ region _ _ hTop hRest =>
          refine .cons ⟨hTop.1, ?_⟩ hRest
          obtain ⟨visit, phase⟩ := region
          obtain rfl | rfl := isRun <;> cases phase <;> first | trivial | exact hTop.2

end

/-! ## Marks -/

/-- A deed that is about no region's mark. -/
def Deed.KeepsMarks : Deed → Prop
  | .enters _ => False
  | .leaves _ _ _ => False
  | .abandons _ => False
  | .catches _ _ => False
  | .reports _ _ => False
  | .handles _ _ _ => False
  | _ => True

/-- What a deed does to the marks on the region stack. -/
inductive Deed.Marks : Deed → List Region → List Region → Prop
  | same {deed : Deed} {regions : List Region} (keeps : deed.KeepsMarks) :
      Marks deed regions regions
  | enters {visit : Visit} {regions : List Region} :
      Marks (.enters visit) regions (⟨visit, visit.opening⟩ :: regions)
  | leaves {visit : Visit} {unwinding : Bool} {fate : Fate} {state : RegionState}
      {regions : List Region} :
      Marks (.leaves visit unwinding fate) (⟨visit, state⟩ :: regions) regions
  | abandons {visit : Visit} {regions : List Region} :
      Marks (.abandons visit) (⟨visit, .entered⟩ :: regions) regions
  | catches {visit : Visit} {exception : Exception} {regions : List Region} :
      Marks (.catches visit exception) (⟨visit, .dispatching⟩ :: regions)
        (⟨visit, .matching⟩ :: regions)
  | reports {visit : Visit} {exception : Exception} {regions : List Region} :
      Marks (.reports visit exception) (⟨visit, .dispatching⟩ :: regions)
        (⟨visit, .matching⟩ :: regions)
  | handles {visit : Visit} {exception : Exception} {name : String}
      {regions : List Region} :
      Marks (.handles visit exception name) (⟨visit, .matching⟩ :: regions)
        (⟨visit, .handling⟩ :: regions)

section

variable {ledger : List Extent}

/-- A region that is entered is marked with the stage in which its kind of region
begins. -/
theorem mark_entered (visit : Visit) :
    (entered visit.explicit visit).mark? = some ⟨visit, visit.opening⟩ := by
  unfold entered Visit.opening
  cases visit.explicit <;> rfl

/-- The marks that a ledger says, before and after a deed. -/
theorem Deed.Fits.marks {deed : Deed} (hFits : deed.Fits ledger) :
    deed.Marks (ledger.filterMap Extent.mark?)
      ((deed.move.apply ledger).filterMap Extent.mark?) := by
  have closes {extent : Extent} (keeps : deed.KeepsMarks)
    (hHead : ledger.head? = some extent) (hMark : extent.mark? = none) :
      deed.Marks (ledger.filterMap Extent.mark?) (ledger.tail.filterMap Extent.mark?) :=
        by
    obtain ⟨rest, rfl⟩ := List.head?_eq_some_iff.1 hHead
    rw [List.filterMap_cons_none hMark]
    exact .same keeps
  cases deed with
  | closes => exact closes trivial hFits rfl
  | closesScope mark => exact closes trivial hFits rfl
  | unshields mark => exact closes trivial hFits rfl
  | leavesCall entry => exact closes trivial hFits rfl
  | enters visit =>
      change Marks _ _ ((entered visit.explicit visit :: ledger).filterMap Extent.mark?)
      rw [List.filterMap_cons_some (mark_entered visit)]
      exact .enters
  | leaves visit unwinding fate =>
      obtain hRegion | ⟨phase, hProtecting⟩ := hFits
      · obtain ⟨rest, rfl⟩ := List.head?_eq_some_iff.1 hRegion
        exact .leaves
      · obtain ⟨rest, rfl⟩ := List.head?_eq_some_iff.1 hProtecting
        exact .leaves
  | abandons visit =>
      obtain ⟨rest, rfl⟩ := List.head?_eq_some_iff.1 hFits
      exact .abandons
  | catches visit exception =>
      obtain ⟨rest, rfl⟩ := List.head?_eq_some_iff.1 hFits
      exact .catches
  | reports visit exception =>
      obtain ⟨rest, rfl⟩ := List.head?_eq_some_iff.1 hFits
      exact .reports
  | handles visit exception name =>
      obtain ⟨rest, rfl⟩ := List.head?_eq_some_iff.1 hFits
      exact .handles
  | _ => exact .same trivial

end

/-! ## Layers -/

section

variable {next floor : Nat} {ledger : List Extent} {regions : List Nat}
    {dispatch : List Dispatch}

/-- The numbers on the region stack grow from the bottom to the top, and all are given
out. A region lies on regions with smaller numbers, because it took the next number when
it was entered. -/
theorem Layered.ordered (h : Layered .thread next ledger regions dispatch floor) :
    regions.Pairwise (· > ·) ∧ ∀ id ∈ regions, id < next := by
  have onTop {visit : Visit} {below : List Nat} {next : Nat} (hNext : visit.id < next)
      (ih : below.Pairwise (· > ·) ∧ ∀ id ∈ below, id < visit.id) :
      (visit.id :: below).Pairwise (· > ·) ∧ ∀ id ∈ visit.id :: below, id < next := by
    refine ⟨List.pairwise_cons.2 ⟨ih.2, ih.1⟩, fun id hMem => ?_⟩
    rcases List.mem_cons.1 hMem with rfl | hBelow
    · exact hNext
    · exact Nat.lt_trans (ih.2 id hBelow) hNext
  induction h with
  | ground isFree => exact ⟨.nil, fun _ hMem => nomatch hMem⟩
  | call below ih => exact ih
  | scope below isOld ih => exact ih
  | guardBody below isOld ih => exact ih
  | region below isOld isExplicit hRegions hDispatch hFloor ih => exact onTop isOld ih
  | protecting below isOld isProtected hFloor ih => exact onTop isOld ih

/-- A region of the ledger is explicit or protected as its visit says. An extent that is
no region says nothing new. -/
theorem Layered.sorted (h : Layered .thread next ledger regions dispatch floor) :
    (∀ visit, .region visit ∈ ledger → visit.explicit = true) ∧
      ∀ visit phase, .protecting visit phase ∈ ledger → visit.explicit = false := by
  have skip {top : Extent} {below : List Extent}
    (hRegion : ∀ visit, top ≠ .region visit)
    (hProtecting : ∀ visit phase, top ≠ .protecting visit phase)
    (ih : (∀ visit, .region visit ∈ below → visit.explicit = true) ∧
        ∀ visit phase, .protecting visit phase ∈ below → visit.explicit = false) :
      (∀ visit, .region visit ∈ top :: below → visit.explicit = true) ∧
        ∀ visit phase, .protecting visit phase ∈ top :: below →
          visit.explicit = false := by
    refine ⟨fun visit hMem => ?_, fun visit phase hMem => ?_⟩
    · exact ih.1 visit
        ((List.mem_cons.1 hMem).resolve_left fun hTop => hRegion visit hTop.symm)
    · exact ih.2 visit phase
        ((List.mem_cons.1 hMem).resolve_left fun hTop =>
        hProtecting visit phase hTop.symm)
  induction h with
  | ground isFree =>
      refine skip (by simp) (by simp) ⟨?_, ?_⟩ <;> simp
  | call below ih => exact skip (by simp) (by simp) ih
  | scope below isOld ih => exact skip (by simp) (by simp) ih
  | guardBody below isOld ih => exact skip (by simp) (by simp) ih
  | region below isOld isExplicit hRegions hDispatch hFloor ih =>
      refine ⟨fun visit hMem => ?_, fun visit phase hMem => ?_⟩
      · rcases List.mem_cons.1 hMem with hTop | hBelow
        · cases hTop
          exact isExplicit
        · exact ih.1 visit hBelow
      · exact ih.2 visit phase ((List.mem_cons.1 hMem).resolve_left (by simp))
  | protecting below isOld isProtected hFloor ih =>
      refine ⟨fun visit hMem => ?_, fun visit phase hMem => ?_⟩
      · exact ih.1 visit ((List.mem_cons.1 hMem).resolve_left (by simp))
      · rcases List.mem_cons.1 hMem with hTop | hBelow
        · cases hTop
          exact isProtected
        · exact ih.2 visit phase hBelow

/-- The number of an open protected region is given out. -/
theorem Layered.id_lt (h : Layered .thread next ledger regions dispatch floor)
    {visit : Visit} {phase : Phase} (hMem : .protecting visit phase ∈ ledger) :
    visit.id < next := by
  induction h with
  | ground isFree => cases List.mem_singleton.1 hMem
  | call below ih => exact ih ((List.mem_cons.1 hMem).resolve_left (by simp))
  | scope below isOld ih => exact ih ((List.mem_cons.1 hMem).resolve_left (by simp))
  | guardBody below isOld ih => exact ih ((List.mem_cons.1 hMem).resolve_left (by simp))
  | region below isOld isExplicit hRegions hDispatch hFloor ih =>
      exact Nat.lt_trans (ih ((List.mem_cons.1 hMem).resolve_left (by simp))) isOld
  | protecting below isOld isProtected hFloor ih =>
      rcases List.mem_cons.1 hMem with hTop | hBelow
      · cases hTop
        exact isOld
      · exact Nat.lt_trans (ih hBelow) isOld

/-- A region whose handler runs has no dispatch mark. -/
theorem Layered.unmarked (h : Layered .thread next ledger regions dispatch floor)
    {visit : Visit} {caught : Exception}
    (hMem : .protecting visit (.handler caught) ∈ ledger) :
    .region visit.id ∉ dispatch := by
  induction h with
  | ground isFree => exact fun hMark => nomatch hMark
  | call below ih => exact ih ((List.mem_cons.1 hMem).resolve_left (by simp))
  | scope below isOld ih => exact ih ((List.mem_cons.1 hMem).resolve_left (by simp))
  | guardBody below isOld ih =>
      exact fun hMark => ih ((List.mem_cons.1 hMem).resolve_left (by simp))
        ((List.mem_cons.1 hMark).resolve_left (by simp))
  | region below isOld isExplicit hRegions hDispatch hFloor ih =>
      exact ih ((List.mem_cons.1 hMem).resolve_left (by simp))
  | @protecting next ledger regions dispatch floor top phase below isOld isProtected
      hFloor ih =>
      intro hMark
      rcases List.mem_cons.1 hMem with hTop | hBelow
      · cases hTop
        exact Nat.lt_irrefl _ (below.owner_lt Ground.firm_thread _ hMark)
      · rcases List.mem_append.1 hMark with hOwn | hUnder
        · have hId : visit.id = top.id := by
            cases phase <;> simp [Phase.marks] at hOwn <;> exact hOwn
          exact Nat.lt_irrefl _ (hId ▸ below.id_lt hBelow)
        · exact ih hBelow hUnder

end

/-! ## One step of a run -/

/-- The region stack of a thread holds the marks that the ledger says. -/
def Marked (m : Machine ν) (ledger : List Extent) : Prop :=
  ∀ context, m.context = some context →
    context.regions.live = ledger.filterMap Extent.mark?

/-- A state of a run that closes in turn, without its code: the stacks are nested,
everything that was told has been handed on, and the marks are as far as the ledger
says. -/
structure Recorded (m : Machine ν) (ledger : List Extent) : Prop where
  stands : Stands m ledger
  hasToldAll : m.HasToldAll
  marked : Marked m ledger

/-- The same, and the code that is in regions is as far as the ledger says.

Each field is about another record of the same thing: the stacks, the history, the marks
and the code. A law about the life of a region compares two of them. -/
structure Lively (m : Machine ν) (ledger : List Extent) : Prop
    extends Recorded m ledger where
  staged : Staged m.stages ledger

section

variable {m : Machine ν} {ledger : List Extent}

/-- Explicit regions and protected ones are told apart on the ledger as they are by
their visits. -/
theorem Stands.sorted (h : Stands m ledger) :
    (∀ visit, .region visit ∈ ledger → visit.explicit = true) ∧
    ∀ visit phase, .protecting visit phase ∈ ledger → visit.explicit = false := by
  cases hContext : m.context with
  | none =>
      rw [h.closed hContext]
      exact ⟨fun _ hMem => (nomatch hMem), fun _ _ hMem => nomatch hMem⟩
  | some context =>
      obtain ⟨floor, hLayered, -⟩ := h.nested context hContext
      exact hLayered.sorted

/-- An abandoned region lay on top of the region stack, so nothing but its own mark
goes. -/
theorem Nested.regions_abandon {visit : Visit} {frames : List Frame} {before : Entries}
    (h : Nested .thread ledger before) (hFits : (Deed.abandons visit).Fits ledger) :
    (before.abandon visit frames).regions = before.regions.tail := by
  obtain ⟨floor, hLayered, -⟩ := h
  obtain ⟨rest, rfl⟩ := List.head?_eq_some_iff.1 hFits
  obtain ⟨under, _, hRegions, -, -, -, hCount, -⟩ :=
    hLayered.of_region Ground.firm_thread
  have hTop : before.regions.length - visit.entry.regions = 1 := by
    have hLength := congrArg List.length hRegions
    rw [List.length_map, List.length_cons] at hLength
    omega
  simp only [Entries.abandon, hTop, List.drop_one]

/-- A deed on the stacks changes the marks as it changes the ledger. -/
theorem Deed.Turns.marked {deed : Deed} {before : Entries} {left : Context}
    (hTurns : deed.Turns before left.entries) (hNested : Nested .thread ledger before)
    (hFits : deed.Fits ledger) (hPlaces : deed.Places (some left))
    (hMarked : before.regions = ledger.filterMap Extent.mark?) :
    left.regions.live = (deed.move.apply ledger).filterMap Extent.mark? := by
  have hMarks := hFits.marks
  rw [← hMarked] at hMarks
  generalize (deed.move.apply ledger).filterMap Extent.mark? = marks at hMarks ⊢
  change left.entries.regions = marks
  generalize hAfter : left.entries = after at hTurns ⊢
  generalize hBefore : before.regions = regions at hMarks
  cases hTurns with
  | @enters _ visit state number measured =>
      have hTop : left.regions.top? = some ⟨visit, state⟩ :=
        Stack.top?_of_live (congrArg Entries.regions hAfter)
      obtain rfl : state = visit.opening :=
        congrArg Region.state (Option.some.inj (hTop.symm.trans hPlaces))
      cases hMarks with
      | same keeps => exact keeps.elim
      | enters => rw [← hBefore]
  | @leaves _ visit unwinding fate frame frames isFramed count =>
      cases hMarks with
      | same keeps => exact keeps.elim
      | leaves => simp only [Entries.leave, hBefore, List.tail_cons]
  | @abandons _ visit above below isFramed count =>
      cases hMarks with
      | same keeps => exact keeps.elim
      | abandons => rw [hNested.regions_abandon hFits, hBefore, List.tail_cons]
  | catches innermost inFlight found =>
      cases hMarks with
      | same keeps => exact keeps.elim
      | catches =>
          obtain ⟨rfl, rfl⟩ := List.cons.inj (innermost.symm.trans hBefore)
          rfl
  | reports innermost =>
      cases hMarks with
      | same keeps => exact keeps.elim
      | reports =>
          obtain ⟨rfl, rfl⟩ := List.cons.inj (innermost.symm.trans hBefore)
          rfl
  | handles innermost marked own =>
      cases hMarks with
      | same keeps => exact keeps.elim
      | handles =>
          obtain ⟨rfl, rfl⟩ := List.cons.inj (innermost.symm.trans hBefore)
          rfl
  | quiet isQuiet => cases hMarks <;> first | exact hBefore | exact isQuiet.elim
  | _ =>
      cases hMarks
      exact hBefore

/-- A step with a deed that fits the ledger keeps the region stack marked as the ledger
says. -/
theorem marked_step (hRecorded : Recorded m ledger) (hFits : m.deed.Fits ledger)
    (hGoesOn : m.step.poisoned = false) : Marked m.step (m.move.apply ledger) := by
  intro left hLeft
  have hStands := hRecorded.stands
  have hDid := Machine.did_step hStands.clear hGoesOn
  have hShows := Machine.shows_step hStands.clear hRecorded.hasToldAll hGoesOn
  have hPlaces := hShows.places
  have hActs := hDid.acts
  rw [hLeft] at hPlaces
  rw [hDid.move]
  rw [Machine.entries?_some hLeft] at hActs
  generalize hBefore : m.entries? = before at hActs
  generalize hAfter : left.entries = after at hActs
  generalize m.deed = deed at hActs hFits hPlaces
  cases hActs with
  | opens =>
      obtain rfl := hStands.closed (Option.map_eq_none_iff.1 hBefore)
      exact congrArg Entries.regions hAfter
  | turns hTurns =>
      obtain ⟨context, hContext, rfl⟩ := Machine.exists_of_entries? hBefore
      rw [← hAfter] at hTurns
      exact hTurns.marked (hStands.nested context hContext)
        hFits hPlaces (hRecorded.marked context hContext)

namespace Recorded

/-- A step with a deed that fits the ledger keeps the records in step with each
other. -/
theorem keeps (h : Recorded m ledger) (hFits : m.deed.Fits ledger)
    (hGoesOn : m.step.poisoned = false)
    (hPoised : Poised m.step.focus (m.move.apply ledger)) :
    Recorded m.step (m.move.apply ledger) where
  stands := h.stands.keeps hFits hGoesOn hPoised
  hasToldAll := Machine.hasToldAll_step h.hasToldAll
  marked := marked_step h hFits hGoesOn

/-- One step in turn keeps them so. -/
theorem step (h : Recorded m ledger) (hTurn : m.InTurn ledger)
    (hGoesOn : m.step.poisoned = false) : Recorded m.step (m.move.apply ledger) where
  stands := h.stands.step hTurn hGoesOn
  hasToldAll := Machine.hasToldAll_step h.hasToldAll
  marked := marked_step h (h.stands.fits hTurn) hGoesOn

/-- What a deed that fits the ledger does to the code that is in regions. -/
theorem staged {closing : Option Extent} {deed : Deed} {before after : List Stage}
    (h : Recorded m ledger) (hRestages : Restages closing deed before after)
    (hFits : deed.Fits ledger)
    (hClosing : ∀ extent, closing = some extent → ledger.head? = some extent)
    (hStaged : Staged before ledger) : Staged after (deed.move.apply ledger) := by
  refine hRestages.staged hFits hClosing (fun visit phase hRegion hProtecting => ?_)
    hStaged
  cases (h.stands.sorted.1 visit hRegion).symm.trans
    (h.stands.sorted.2 visit phase hProtecting)

end Recorded

/-- One step in turn keeps all of it: the stacks stay nested, nothing stays untold, and
code and marks go on together. -/
theorem Lively.step (h : Lively m ledger) (hTurn : m.InTurn ledger)
    (hGoesOn : m.step.poisoned = false) :
    Lively m.step (m.move.apply ledger) where
  toRecorded := h.toRecorded.step hTurn hGoesOn
  staged := by
    rw [(Machine.did_step h.stands.clear hGoesOn).move]
    exact h.toRecorded.staged
      (Machine.shows_step h.stands.clear h.hasToldAll hGoesOn).restages
      (h.stands.fits hTurn) hTurn.closing h.staged

/-- All of it holds where a program starts, with no region open. -/
theorem lively_start (process : Process) (auto : Bool) (limits : Option Limits)
    (body : List (Stmt ν)) :
    Lively (Machine.start process auto limits body)
      (Machine.start process auto limits body).opened where
  stands := stands_start process auto limits body
  hasToldAll := Machine.hasToldAll_start process auto limits body
  staged := by
    rw [Machine.stages_start, Machine.opened]
    split <;> exact .nil
  marked := by
    intro context hContext
    rw [Machine.opened, hContext]
    exact congrArg Entries.regions
      ((Machine.start_fresh process auto limits body).2.2 context hContext)

/-- The marks have numbers of their own, and all are given out. -/
theorem Recorded.ordered (h : Recorded m ledger) :
    ((ledger.filterMap Extent.mark?).Pairwise fun upper lower => upper.visit.id >
      lower.visit.id) ∧
      ∀ context, m.context = some context → ∀ region ∈ ledger.filterMap Extent.mark?,
        region.visit.id < context.nextId := by
  cases hContext : m.context with
  | none =>
      rw [h.stands.closed hContext]
      exact ⟨.nil, fun _ hSome => nomatch hSome⟩
  | some context =>
      obtain ⟨floor, hLayered, -⟩ := h.stands.nested context hContext
      have hRegions : context.entries.regions = ledger.filterMap Extent.mark? :=
        h.marked context hContext
      obtain ⟨hOrdered, hBelow⟩ := hLayered.ordered
      rw [hRegions] at hOrdered hBelow
      refine ⟨List.pairwise_map.1 hOrdered, fun other hSome region hMem => ?_⟩
      cases hSome
      exact hBelow _ (List.mem_map.2 ⟨region, hMem, rfl⟩)

/-! ## Numbers of regions -/

/-- Numbers are only given out. -/
theorem Deed.Turns.nextId_le {deed : Deed} {before after : Entries}
    (h : deed.Turns before after) :
    before.nextId ≤ after.nextId := by
  cases h <;> first | exact Nat.le_refl _ | exact Nat.le_succ _

/-- A number has been given out, so no region that is entered from now on gets it. -/
def Machine.HasGiven (m : Machine ν) (id : Nat) : Prop :=
  ∀ context, m.context = some context → id < context.nextId

/-- A region that is entered has the next number. -/
theorem Recorded.enters (h : Recorded m ledger) (hGoesOn : m.step.poisoned = false)
    {visit : Visit} (hDeed : m.deed = .enters visit) :
    ∃ context, m.context = some context ∧ visit.id = context.nextId := by
  have hActs := (Machine.did_step h.stands.clear hGoesOn).acts
  rw [hDeed] at hActs
  generalize hBefore : m.entries? = before at hActs
  generalize m.step.entries? = after at hActs
  cases hActs with
  | turns hTurns =>
      obtain ⟨context, hContext, rfl⟩ := Machine.exists_of_entries? hBefore
      cases hTurns with
      | quiet isQuiet => exact isQuiet.elim
      | enters number measured => exact ⟨context, hContext, number⟩
  | quiet isQuiet => exact isQuiet.elim

/-- Another context is opened only where there is none. -/
theorem Recorded.opens (h : Recorded m ledger) (hGoesOn : m.step.poisoned = false)
    (hDeed : m.deed = .opens) : m.context = none := by
  have hActs := (Machine.did_step h.stands.clear hGoesOn).acts
  rw [hDeed] at hActs
  generalize hBefore : m.entries? = before at hActs
  generalize m.step.entries? = after at hActs
  cases hActs with
  | turns hTurns =>
      cases hTurns with
      | quiet isQuiet => exact isQuiet.elim
  | quiet isQuiet => exact isQuiet.elim
  | opens => exact Option.map_eq_none_iff.1 hBefore

/-- The numbers that were given out stay given out in the next step, in the same
context. -/
theorem Recorded.given_step (h : Recorded m ledger) (hGoesOn : m.step.poisoned = false)
    (hOpens : m.deed ≠ .opens) {id : Nat} (hGiven : m.HasGiven id) :
    m.step.HasGiven id := by
  intro left hLeft
  have hActs := (Machine.did_step h.stands.clear hGoesOn).acts
  rw [Machine.entries?_some hLeft] at hActs
  generalize hBefore : m.entries? = before at hActs
  generalize hAfter : left.entries = after at hActs
  generalize m.deed = deed at hActs hOpens
  cases hActs with
  | opens => exact absurd rfl hOpens
  | turns hTurns =>
      obtain ⟨context, hContext, rfl⟩ := Machine.exists_of_entries? hBefore
      have hLe := hTurns.nextId_le
      rw [← hAfter] at hLe
      exact Nat.lt_of_lt_of_le (hGiven context hContext) hLe

end

end Unwinding
