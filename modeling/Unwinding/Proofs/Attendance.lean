import Unwinding.Proofs.Beneath
import Unwinding.Proofs.Inquiries
import Unwinding.Proofs.Phases

/-!
# Regions that have called code

A region that has called code while it tries its clauses waits for that code without
being part of the code that waits. It has its place between the code that it called and
the code beneath, and a step of the machine does not get that far down.

So the regions that code is in, these regions among them, stay in step with the ledger
from one situation to the next.

## Main results

* `Around`, `Attended.onward` — regions that have called code have theirs between that
  code and the code beneath it, and stay in step with the ledger.
* `Onward.acts` — what changes the records of a situation is a step of some machine.
-/

namespace Unwinding

open Context

variable {ν : Type}

/-! ## The code around inquiries -/

/-- The protected regions that waiting code is in, innermost first. A region that has
called code tries its clauses between that code and the code beneath it. -/
inductive Around : List (Inquiry ν) → List (Resumption ν) → List Stage → Prop
  | code {control : List (Resumption ν)} : Around [] control (stagesOf control)
  | inquiry {inquiry : Inquiry ν} {older : List (Inquiry ν)}
      {above under : List (Resumption ν)} {stages : List Stage}
      (isDeep : under.length = inquiry.depth) (below : Around older under stages) :
      Around (inquiry :: older) (above ++ under)
        (stagesOf above ++ ⟨inquiry.region.visit, .clauses⟩ :: stages)

private theorem Inquiry.Ends.bare {inquiry : Inquiry ν} {m : Machine ν}
    {ledger : List Extent} (h : inquiry.Ends m ledger) :
    m.bare.length ≤ inquiry.depth := by
  rw [Machine.bare, List.length_map]
  exact h.isOver

section

variable {inquiries older : List (Inquiry ν)} {inquiry : Inquiry ν}
  {control : List (Resumption ν)} {stages : List Stage} {stage : Stage}

/-- Handles are in no region's code, so it does not matter whether they are there. -/
theorem stagesOf_bare (m : Machine ν) : stagesOf m.bare = stagesOf m.control :=
  stagesOf_congr (by
    rw [Machine.bare, List.map_map]
    exact List.map_congr_left fun waiting _ => by cases waiting <;> rfl)

private theorem stagesOf_append (above below : List (Resumption ν)) :
    stagesOf (above ++ below) = stagesOf above ++ stagesOf below :=
  List.filterMap_append

/-- The code of the innermost inquiry lies on the code beneath it. -/
theorem Around.split (h : Around (inquiry :: older) control stages) :
    ∃ above under below, control = above ++ under ∧ under.length = inquiry.depth ∧
      stages = stagesOf above ++ ⟨inquiry.region.visit, .clauses⟩ :: below ∧
      Around older under below := by
  cases h with
  | inquiry isDeep below => exact ⟨_, _, _, rfl, isDeep, rfl, below⟩

/-- A region that calls code goes on trying its clauses beneath that code. -/
theorem Around.ask (h : Around older control stages) (region : Protected ν)
    (exception : Exception) :
    Around (⟨region, exception, control.length⟩ :: older) control
      (⟨region.visit, .clauses⟩ :: stages) := by
  change Around _ ([] ++ control) (stagesOf ([] : List (Resumption ν)) ++ _)
  exact .inquiry rfl h

/-- Where only the code beneath an inquiry waits, its region is the innermost one. -/
theorem Around.over (h : Around (inquiry :: older) control stages)
    (hOver : control.length ≤ inquiry.depth) :
    ∃ below, stages = ⟨inquiry.region.visit, .clauses⟩ :: below ∧
      Around older control below := by
  obtain ⟨above, under, below, rfl, hDeep, rfl, hBelow⟩ := h.split
  rw [List.length_append, hDeep] at hOver
  obtain rfl : above = [] := List.length_eq_zero_iff.1 (by omega)
  exact ⟨below, rfl, hBelow⟩

/-- Code that waits is in its regions, with inquiries among them or not. -/
theorem Around.of_code (h : Around inquiries control stages)
    (hMem : stage ∈ stagesOf control) : stage ∈ stages := by
  induction h with
  | code => exact hMem
  | inquiry isDeep below ih =>
      rw [stagesOf_append] at hMem
      rcases List.mem_append.1 hMem with hAbove | hBelow
      · exact List.mem_append_left _ hAbove
      · exact List.mem_append_right _ (List.mem_cons_of_mem _ (ih hBelow))

/-- A region that has called code tries its clauses. -/
theorem Around.of_inquiry (h : Around inquiries control stages)
    (hMem : inquiry ∈ inquiries) : ⟨inquiry.region.visit, .clauses⟩ ∈ stages := by
  induction h with
  | code => cases hMem
  | inquiry isDeep below ih =>
      refine List.mem_append_right _ ?_
      rcases List.mem_cons.1 hMem with rfl | hOlder
      · exact List.mem_cons_self
      · exact List.mem_cons_of_mem _ (ih hOlder)

/-- What waits for no region's code may be put on top. -/
theorem Around.push {waiting : Resumption ν} (h : Around inquiries control stages)
    (hNone : waiting.stage? = none) : Around inquiries (waiting :: control) stages := by
  have hStages (below : List (Resumption ν)) :
      stagesOf (waiting :: below) = stagesOf below :=
    List.filterMap_cons_none hNone
  cases h with
  | code => exact hStages control ▸ .code
  | @inquiry inquiry older above under stages isDeep below =>
      rw [← hStages above, ← List.cons_append]
      exact .inquiry isDeep below

/-- Every region that code is in waits for that code, or has called it. -/
theorem Around.cases_mem (h : Around inquiries control stages) (hMem : stage ∈ stages) :
    stage ∈ stagesOf control ∨
      ∃ inquiry ∈ inquiries, stage = ⟨inquiry.region.visit, .clauses⟩ := by
  induction h with
  | code => exact .inl hMem
  | @inquiry inquiry older above under stages isDeep below ih =>
      rw [stagesOf_append]
      rcases List.mem_append.1 hMem with hAbove | hRest
      · exact .inl (List.mem_append_left _ hAbove)
      · rcases List.mem_cons.1 hRest with rfl | hBelow
        · exact .inr ⟨inquiry, List.mem_cons_self, rfl⟩
        · obtain hCode | ⟨other, hOther, hStage⟩ := ih hBelow
          · exact .inl (List.mem_append_right _ hCode)
          · exact .inr ⟨other, List.mem_cons_of_mem _ hOther, hStage⟩

end

/-! ## What lies beneath a step -/

section

variable {before after below : List Stage}

/-- Two lists that differ in their first entries and end alike differ above what they
have in common. -/
private theorem tops_of_append {α : Type} {first second : α}
    {upper lower rest both : List α}
    (hNe : first ≠ second) (hUpper : upper ++ both = first :: rest)
    (hLower : lower ++ both = second :: rest) :
    ∃ between, upper = first :: between ∧ lower = second :: between := by
  cases upper with
  | nil =>
      cases lower with
      | nil => exact absurd (List.cons.inj (hUpper.symm.trans hLower)).1 hNe
      | cons top lower =>
          have hLength := congrArg List.length hUpper
          have hOther := congrArg List.length hLower
          simp only [List.nil_append, List.cons_append, List.length_cons,
            List.length_append] at hLength hOther
          omega
  | cons top between =>
      obtain ⟨rfl, rfl⟩ := List.cons.inj hUpper
      exact ⟨between, rfl,
        List.append_cancel_right (hLower.trans List.cons_append.symm)⟩

/-- A deed is about the code on top. What it does there it would do above other code
as well. -/
theorem Restages.beneath {closing : Option Extent} {deed : Deed}
    (h : Restages closing deed (before ++ below) (after ++ below))
    (other : List Stage) :
    Restages closing deed (before ++ other) (after ++ other) := by
  generalize hBefore : before ++ below = these at h
  generalize hAfter : after ++ below = those at h
  have same (hSame : these = those) : before = after :=
    List.append_cancel_right (hBefore.trans (hSame.trans hAfter.symm))
  cases h with
  | silent isSilent => exact same rfl ▸ .silent isSilent
  | @enters visit _ isProtected =>
      rw [← hBefore, ← List.cons_append] at hAfter
      exact List.append_cancel_right hAfter ▸ .enters isProtected
  | opens isExplicit => exact same rfl ▸ .opens isExplicit
  | leaves =>
      rw [← hAfter, ← List.cons_append] at hBefore
      exact List.append_cancel_right hBefore ▸ .leaves
  | gives isGiven => exact same rfl ▸ .gives isGiven
  | catches =>
      obtain ⟨between, rfl, rfl⟩ := tops_of_append (by simp) hBefore hAfter
      exact .catches
  | reports =>
      obtain ⟨between, rfl, rfl⟩ := tops_of_append (by simp) hBefore hAfter
      exact .reports
  | handles =>
      obtain ⟨between, rfl, rfl⟩ := tops_of_append (by simp) hBefore hAfter
      exact .handles
  | declines =>
      obtain ⟨between, rfl, rfl⟩ := tops_of_append (by simp) hBefore hAfter
      exact .declines
  | returns isRun =>
      obtain ⟨between, rfl, rfl⟩ :=
        tops_of_append (by obtain rfl | rfl := isRun <;> simp) hBefore hAfter
      exact .returns isRun

end

/-! ## One step of a situation -/

/-- A situation whose records are in step, and whose code, with that of the inquiries,
is as far as the ledger says. -/
structure Attended (situation : Situation ν) : Prop
    extends Recorded situation.machine situation.ledger where
  staged : ∃ waiting,
    Around situation.inquiries situation.machine.bare waiting ∧
      Staged (situation.machine.focus.stage?.toList ++ waiting) situation.ledger

/-- What changes the records of a situation: nothing, or the step of a machine with
these records whose deed fits the ledger. The machine is not always the one of the
situation, since an unwinding may pass a region that waits for an inquiry. -/
inductive Situation.Acts (before : Situation ν) : Deed → Situation ν → Prop
  | rests {after : Situation ν} (ledger : after.ledger = before.ledger)
      (context : after.machine.context = before.machine.context)
      (told : after.machine.told = before.machine.told) :
      Acts before .rests after
  | acts {m : Machine ν} {after : Situation ν} (recorded : Recorded m before.ledger)
      (fits : m.deed.Fits before.ledger) (goesOn : m.step.poisoned = false)
      (context : m.context = before.machine.context)
      (told : m.told = before.machine.told) (machine : after.machine = m.step)
      (ledger : after.ledger = m.deed.move.apply before.ledger) :
      Acts before m.deed after

section

variable {allowed : Machine ν → List Extent → Prop} {drops : Payload → Prop}
  {situation next : Situation ν} {deed : Deed}

/-- An unwinding that passes a region which has called code passes it as it would pass
one whose handler runs. -/
private theorem Machine.step_unwound {m : Machine ν} {payload : Payload}
    (hUnwinds : m.focus = .unwind payload) (region : Protected ν) :
    (m.push (.handler region)).step = m.passThrough region payload ∧
      (m.push (.handler region)).deed = .leaves region.visit true .nothing := by
  have hFocus : (m.push (.handler region)).focus = .unwind payload := hUnwinds
  constructor
  · rw [Machine.step, hFocus]
    rfl
  · rw [Machine.deed, hFocus]
    rfl

private theorem Recorded.push {m : Machine ν} {ledger : List Extent}
    (h : Recorded m ledger) (waiting : Resumption ν) :
    Recorded (m.push waiting) ledger where
  stands := ⟨h.stands.clear, h.stands.poised, h.stands.closed, h.stands.nested⟩
  hasToldAll := h.hasToldAll
  marked := h.marked

/-- What a situation comes to, it comes to by what is recorded of its deed. -/
theorem Onward.acts (h : Onward allowed drops situation deed next)
    (hTurn : ∀ m ledger, allowed m ledger → m.InTurn ledger)
    (hRecorded : Recorded situation.machine situation.ledger) :
    situation.Acts deed next := by
  cases h with
  | step isAllowed goesOn isInside =>
      exact .acts hRecorded (hRecorded.stands.fits (hTurn _ _ isAllowed)) goesOn rfl rfl
        rfl (by rw [(Machine.did_step hRecorded.stands.clear goesOn).move])
  | destructs unwinds isDropping body => exact .rests rfl rfl rfl
  | passes offers isFirst isUnfit => exact .rests rfl rfl rfl
  | asks offers code => exact .rests rfl rfl rfl
  | answers delivers ends => exact .rests rfl rfl rfl
  | @leaves m ledger inquiry inquiries payload unwinds ends goesOn =>
      obtain ⟨hStep, hDeed⟩ := Machine.step_unwound unwinds inquiry.region
      rw [← hStep] at goesOn
      have hActs : Situation.Acts ⟨m, ledger, inquiry :: inquiries⟩ _
          ⟨m.passThrough inquiry.region payload, ledger.tail, inquiries⟩ :=
        .acts (hRecorded.push _) (by rw [hDeed]; exact .inr ⟨_, ends.isInTurn⟩) goesOn
          rfl rfl hStep.symm (by rw [hDeed]; rfl)
      rw [hDeed] at hActs
      exact hActs

/-- The records of a situation stay in step, if its machine knows afterwards what it is
in the middle of. -/
private theorem Situation.Acts.recorded {before after : Situation ν}
    (h : before.Acts deed after) (hBefore : Recorded before.machine before.ledger)
    (hClear : after.machine.poisoned = false)
    (hPoised : Poised after.machine.focus after.ledger) :
    Recorded after.machine after.ledger := by
  obtain ⟨m, ledger, inquiries⟩ := after
  cases h with
  | rests hLedger hContext hTold =>
      cases hLedger
      exact {
        stands := ⟨hClear, hPoised,
          fun hNone => hBefore.stands.closed (hContext ▸ hNone),
          fun context hSome => hBefore.stands.nested context (hContext ▸ hSome)⟩
        hasToldAll := fun context hSome => hBefore.hasToldAll context (hContext ▸ hSome)
        marked := fun context hSome => hBefore.marked context (hContext ▸ hSome) }
  | acts recorded fits goesOn context told hMachine hLedger =>
      dsimp only at hMachine hLedger hPoised ⊢
      have hMove := (Machine.did_step recorded.stands.clear goesOn).move
      rw [hMachine, hLedger, ← hMove] at hPoised ⊢
      exact recorded.keeps fits goesOn hPoised

/-- An unwinding that passes a region goes on where it was. -/
private theorem Machine.unwinds_passThrough {m : Machine ν} {region : Protected ν}
    {payload : Payload} (hGoesOn : (m.passThrough region payload).poisoned = false) :
    (m.passThrough region payload).focus = .unwind payload ∧
      (m.passThrough region payload).bare = m.bare := by
  unfold passThrough at hGoesOn ⊢
  split at hGoesOn
  · next hPoisoned =>
      rw [if_pos hPoisoned]
      exact ⟨rfl, rfl⟩
  · next hClear =>
      rw [if_neg hClear]
      obtain ⟨_, _, _, -, -, hStep⟩ := perform_goesOn hGoesOn
      rw [hStep]
      exact ⟨rfl, rfl⟩

/-- A step in the code of an inquiry leaves the code beneath it where it is. -/
private theorem Attended.staged_step (h : Attended situation)
    (hTurn : situation.machine.InTurn situation.ledger)
    (hGoesOn : situation.machine.step.poisoned = false) (hInside : situation.Inside) :
    ∃ waiting, Around situation.inquiries situation.machine.step.bare waiting ∧
      Staged (situation.machine.step.focus.stage?.toList ++ waiting)
        (situation.machine.move.apply situation.ledger) := by
  obtain ⟨m, ledger, inquiries⟩ := situation
  have hRecorded : Recorded m ledger := h.toRecorded
  obtain ⟨waiting, hAround, hStaged⟩ := h.staged
  have hClear := hRecorded.stands.clear
  have hRestages := (Machine.shows_step hClear hRecorded.hasToldAll hGoesOn).restages
  dsimp only at hAround hStaged hInside hGoesOn hTurn ⊢
  rw [Machine.stages, Machine.stages, ← stagesOf_bare, ← stagesOf_bare] at hRestages
  rw [(Machine.did_step hClear hGoesOn).move]
  cases inquiries with
  | nil =>
      cases hAround with
      | code =>
          exact ⟨_, .code, hRecorded.staged hRestages (hRecorded.stands.fits hTurn)
            hTurn.closing hStaged⟩
  | cons inquiry older =>
      obtain ⟨above, under, below, hBare, hDeep, rfl, hBelow⟩ := hAround.split
      cases hControl : m.control with
      | nil => exact absurd (hInside inquiry rfl) (by simp [hControl])
      | cons top control =>
          have hUnder : under <:+ control.map Resumption.bare := by
            have hWhole : under <:+ m.bare := ⟨above, hBare.symm⟩
            have hFewer := hInside inquiry rfl
            rw [Machine.bare, hControl] at hWhole
            rw [hControl, ← hDeep] at hFewer
            refine (List.suffix_cons_iff.1 hWhole).resolve_left fun hAll => ?_
            simp [hAll] at hFewer
          obtain ⟨left, hLeft⟩ := Machine.covers_beneath hControl hUnder hGoesOn
          rw [hBare, ← hLeft, stagesOf_append, stagesOf_append, ← List.append_assoc,
            ← List.append_assoc] at hRestages
          rw [← List.append_assoc] at hStaged
          refine ⟨_, hLeft ▸ Around.inquiry hDeep hBelow, ?_⟩
          rw [← List.append_assoc]
          exact hRecorded.staged (hRestages.beneath _) (hRecorded.stands.fits hTurn)
            hTurn.closing hStaged

/-- What a situation comes to keeps its records in step, and its code as far as the
ledger says. -/
theorem Onward.attended (h : Onward allowed drops situation deed next)
    (hTurn : ∀ m ledger, allowed m ledger → m.InTurn ledger)
    (hAttended : Attended situation) : Attended next := by
  have hActs := h.acts hTurn hAttended.toRecorded
  have hClear := hAttended.stands.clear
  cases h with
  | step isAllowed goesOn isInside =>
      exact ⟨hAttended.toRecorded.step (hTurn _ _ isAllowed) goesOn,
        hAttended.staged_step (hTurn _ _ isAllowed) goesOn isInside⟩
  | destructs unwinds isDropping body =>
      obtain ⟨hRecorded, waiting, hAround, hStaged⟩ := hAttended
      rw [unwinds] at hStaged
      exact ⟨hActs.recorded hRecorded hClear trivial, waiting,
        (hAround.push rfl).push rfl, hStaged⟩
  | passes offers isFirst isUnfit =>
      obtain ⟨hRecorded, waiting, hAround, hStaged⟩ := hAttended
      have hPoised := hRecorded.stands.poised
      rw [offers] at hStaged hPoised
      exact ⟨hActs.recorded hRecorded hClear hPoised, waiting, hAround, hStaged⟩
  | @asks m ledger inquiries region exception offers code =>
      obtain ⟨hRecorded, waiting, hAround, hStaged⟩ := hAttended
      have hAsked := hAround.ask region exception
      dsimp only at hAsked
      rw [Machine.bare, List.length_map] at hAsked
      rw [offers] at hStaged
      exact ⟨hActs.recorded hRecorded hClear trivial, _, hAsked.push rfl, hStaged⟩
  | answers delivers ends =>
      obtain ⟨hRecorded, waiting, hAround, hStaged⟩ := hAttended
      obtain ⟨below, rfl, hBelow⟩ := hAround.over ends.bare
      rw [delivers] at hStaged
      exact ⟨hActs.recorded hRecorded hClear (List.head?_eq_some_iff.1 ends.isInTurn),
        below, hBelow, hStaged⟩
  | @leaves m ledger inquiry inquiries payload unwinds ends goesOn =>
      obtain ⟨hRecorded, waiting, hAround, hStaged⟩ := hAttended
      obtain ⟨below, rfl, hBelow⟩ := hAround.over ends.bare
      obtain ⟨hFocus, hBare⟩ := Machine.unwinds_passThrough goesOn
      obtain ⟨rest, rfl⟩ := List.head?_eq_some_iff.1 ends.isInTurn
      rw [unwinds] at hStaged
      refine ⟨hActs.recorded hRecorded goesOn (by rw [hFocus]; trivial), below, ?_, ?_⟩
      · rw [hBare]
        exact hBelow
      · rw [hFocus]
        cases hStaged with
        | cons hTop hRest => exact hRest

/-- A run whose steps are in turn keeps the records of its situations in step. -/
theorem Consults.attended {start : Situation ν}
    (h : Consults allowed drops start situation)
    (hTurn : ∀ m ledger, allowed m ledger → m.InTurn ledger)
    (hStart : Attended start) : Attended situation := by
  induction h with
  | refl => exact hStart
  | tail before onward ih =>
      obtain ⟨deed, hOnward⟩ := onward
      exact hOnward.attended hTurn ih

/-- Where no region has called code, only the code that waits is in regions. -/
theorem Lively.attended {m : Machine ν} {ledger : List Extent} (h : Lively m ledger) :
    Attended ⟨m, ledger, []⟩ where
  toRecorded := h.toRecorded
  staged := by
    refine ⟨_, .code, ?_⟩
    rw [stagesOf_bare]
    exact h.staged

end

/-! ## What the deed of a situation records -/

section

variable {before after : Situation ν} {deed : Deed}

namespace Situation.Acts

/-- The marks that the ledger says change as the deed says. -/
theorem marks (h : before.Acts deed after) :
    deed.Marks (before.ledger.filterMap Extent.mark?)
      (after.ledger.filterMap Extent.mark?) := by
  cases h with
  | rests ledger => exact ledger ▸ .same trivial
  | acts recorded fits goesOn context told machine ledger => exact ledger ▸ fits.marks

/-- A situation tells of regions what its deed tells. -/
theorem told (h : before.Acts deed after) :
    after.machine.told = deed.moved ++ before.machine.told := by
  cases h with
  | rests ledger context told => exact told
  | acts recorded fits goesOn context told machine ledger =>
      rw [machine, ← told]
      exact (Machine.shows_step recorded.stands.clear recorded.hasToldAll goesOn).told

/-- A region that is entered has the next number. -/
theorem enters {visit : Visit} (h : before.Acts (.enters visit) after) :
    ∃ context, before.machine.context = some context ∧
      visit.id = context.nextId := by
  generalize hDeed : Deed.enters visit = deed at h
  cases h with
  | rests => cases hDeed
  | acts recorded fits goesOn context told machine ledger =>
      exact context ▸ recorded.enters goesOn hDeed.symm

/-- A region that has been entered is marked with its first state. -/
theorem marked {visit : Visit} (h : before.Acts (.enters visit) after) :
    ⟨visit, visit.opening⟩ ∈ after.ledger.filterMap Extent.mark? := by
  have hMarks := h.marks
  generalize before.ledger.filterMap Extent.mark? = marks at hMarks
  generalize after.ledger.filterMap Extent.mark? = marked at hMarks ⊢
  cases hMarks with
  | same keeps => exact keeps.elim
  | enters => exact List.mem_cons_self

/-- Another context is opened only where there is none. -/
theorem opens (h : before.Acts .opens after) : before.machine.context = none := by
  generalize hDeed : Deed.opens = deed at h
  cases h with
  | rests => cases hDeed
  | acts recorded fits goesOn context told machine ledger =>
      exact context ▸ recorded.opens goesOn hDeed.symm

/-- The numbers that were given out stay given out, in the same context. -/
theorem given (h : before.Acts deed after) (hOpens : deed ≠ .opens) {id : Nat}
    (hGiven : before.machine.HasGiven id) : after.machine.HasGiven id := by
  cases h with
  | rests ledger context told =>
      intro left hLeft
      exact hGiven left (context ▸ hLeft)
  | acts recorded fits goesOn context told machine ledger =>
      rw [machine]
      refine recorded.given_step goesOn hOpens fun left hLeft => ?_
      exact hGiven left (context ▸ hLeft)

end Situation.Acts

end

end Unwinding
