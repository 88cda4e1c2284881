import Unwinding.Proofs.Dues
import Unwinding.Proofs.Phases
import Unwinding.Proofs.Restoration

/-!
# Escapes that wait

The escapes of a thread wait on a stack, and only the newest of them is ever looked at,
while the region that is to report an escape is found by its state. The two agree as
long as no explicit region is abandoned in the handler of a region that still owns an
escape (`Machine.Buries`): then the regions that own escapes lie on the region stack in
the order of the escapes, each of them owns one, and it is the first that was abandoned
while its body was the innermost one to run. An escape that is buried under that of a
region further out stays behind when its own region is left.

What a region has to report depends on nothing but what happened to it since it was
entered (`owed`).

## Main results

* `Settled.step` — a step keeps the escapes in the order of the regions that own them.
* `due_step` — what a region has to report after a step, by what the step was to it.
* `escapes_accounted` — the law of every run that buries no escape: what waits in each
  of its states, and what becomes of it when a body returns and when a region is left.
-/

namespace Unwinding

open Context

variable {ν : Type}

/-! ## The regions of a ledger -/

/-- The number of a protected region. -/
def Extent.owner? : Extent → Option Nat
  | .protecting visit _ => some visit.id
  | _ => none

/-- The protected regions of a ledger, innermost first. -/
def owners (ledger : List Extent) : List Nat :=
  ledger.filterMap Extent.owner?

/-- The region whose body is the innermost one to run. -/
def reporting? : List Extent → Option Nat
  | [] => none
  | .protecting visit .body :: _ => some visit.id
  | _ :: rest => reporting? rest

/-- The regions inside that one: their clauses are tried, or their handlers run. -/
def catching? : List Extent → List Nat
  | [] => []
  | .protecting _ .body :: _ => []
  | .protecting visit _ :: rest => visit.id :: catching? rest
  | _ :: rest => catching? rest

section

variable {ledger : List Extent} {owner : Nat}

private theorem owners_split (h : reporting? ledger = some owner) :
    ∃ outer, owners ledger = catching? ledger ++ owner :: outer := by
  induction ledger with
  | nil => cases h
  | cons extent rest ih =>
      cases extent with
      | protecting visit phase =>
          cases phase with
          | body =>
              cases h
              exact ⟨owners rest, rfl⟩
          | clauses caught =>
              obtain ⟨outer, hRest⟩ := ih h
              exact ⟨outer, congrArg (List.cons visit.id) hRest⟩
          | handler caught =>
              obtain ⟨outer, hRest⟩ := ih h
              exact ⟨outer, congrArg (List.cons visit.id) hRest⟩
      | _ => exact ih h

/-- The region that reports is found by the marks. -/
theorem reporterOf_marks
    (hSorted : (∀ visit, .region visit ∈ ledger → visit.explicit = true) ∧
      ∀ visit phase, .protecting visit phase ∈ ledger → visit.explicit = false) :
    reporterOf (ledger.filterMap Extent.mark?) = reporting? ledger := by
  induction ledger with
  | nil => rfl
  | cons extent rest ih =>
      have hRest := ih ⟨fun visit hMem => hSorted.1 visit (List.mem_cons_of_mem _ hMem),
        fun visit phase hMem => hSorted.2 visit phase (List.mem_cons_of_mem _ hMem)⟩
      cases extent with
      | region visit =>
          have isExplicit := hSorted.1 visit List.mem_cons_self
          simpa [reporterOf, Extent.mark?, reporting?, isExplicit] using hRest
      | protecting visit phase =>
          have isProtected := hSorted.2 visit phase List.mem_cons_self
          cases phase with
          | body =>
              simp [reporterOf, Extent.mark?, reporting?, isProtected, Phase.state]
          | _ =>
              simpa [reporterOf, Extent.mark?, reporting?, isProtected, Phase.state]
                using hRest
      | _ => exact hRest

/-- The protected regions among the marks. -/
theorem owners_marks
    (hSorted : (∀ visit, .region visit ∈ ledger → visit.explicit = true) ∧
      ∀ visit phase, .protecting visit phase ∈ ledger → visit.explicit = false) :
    ((ledger.filterMap Extent.mark?).filter fun region => !region.visit.explicit).map
    (fun region => region.visit.id) =
      owners ledger := by
  induction ledger with
  | nil => rfl
  | cons extent rest ih =>
      have hRest := ih ⟨fun visit hMem => hSorted.1 visit (List.mem_cons_of_mem _ hMem),
        fun visit phase hMem => hSorted.2 visit phase (List.mem_cons_of_mem _ hMem)⟩
      cases extent with
      | region visit =>
          have isExplicit := hSorted.1 visit List.mem_cons_self
          rw [List.filterMap_cons_some
            (show Extent.mark? (.region visit) = some ⟨visit, .entered⟩ from rfl),
            List.filter_cons_of_neg (by simp [isExplicit])]
          exact hRest
      | protecting visit phase =>
          have isProtected := hSorted.2 visit phase List.mem_cons_self
          simpa [owners, Extent.mark?, Extent.owner?, isProtected] using hRest
      | _ => exact hRest

end

/-! ## Escapes in order -/

/-- The regions that own the escapes are open, and lie in the order of the escapes. -/
def Owed (escapes : List Escape) (ledger : List Extent) : Prop :=
  (escapes.map Escape.owner).Sublist (owners ledger)

/-- What a region has to report. -/
def due (id : Nat) (escapes : List Escape) : Option Site :=
  (escapes.find? fun escape => escape.owner = id).map Escape.site

section

variable {id owner : Nat} {site : Site} {escapes : List Escape} {below : List Nat}

/-- A region that owns no escape has none to report. -/
theorem due_eq_none (h : id ∉ escapes.map Escape.owner) : due id escapes = none := by
  rw [due, Option.map_eq_none_iff, List.find?_eq_none]
  intro escape hMem hOwner
  exact h (List.mem_map.2 ⟨escape, hMem, by simpa using hOwner⟩)

private theorem due_withdraw (h : id ≠ owner) :
    due id (withdraw owner escapes) = due id escapes := by
  cases escapes with
  | nil => rfl
  | cons escape older =>
      by_cases hOwner : escape.owner = owner
      · rw [withdraw, if_pos hOwner, due, due,
          List.find?_cons_of_neg (by simpa [hOwner] using h.symm)]
      · rw [withdraw, if_neg hOwner]

/-- The innermost region has its escape on top, if it has one. -/
theorem withdraw_sublist (h : (escapes.map Escape.owner).Sublist (owner :: below)) :
    ((withdraw owner escapes).map Escape.owner).Sublist below := by
  cases escapes with
  | nil => exact List.nil_sublist _
  | cons escape older =>
      by_cases hOwner : escape.owner = owner
      · rw [withdraw, if_pos hOwner]
        rw [List.map_cons, hOwner] at h
        exact List.cons_sublist_cons.1 h
      · rw [withdraw, if_neg hOwner]
        obtain hRest | ⟨rest, hEq, -⟩ := List.sublist_cons_iff.1 h
        · exact hRest
        · exact absurd (List.cons.inj hEq).1 hOwner

/-- It has nothing to report unless the newest escape is its own. -/
theorem due_head (h : (escapes.map Escape.owner).Sublist (owner :: below))
    (hNot : owner ∉ below) :
    due owner escapes = (escapes.head?.filter fun escape => escape.owner = owner).map
      Escape.site := by
  cases escapes with
  | nil => rfl
  | cons escape older =>
      by_cases hOwner : escape.owner = owner
      · rw [due, List.find?_cons_of_pos (by simpa using hOwner)]
        simp [Option.filter, hOwner]
      · have hRest : ((escape :: older).map Escape.owner).Sublist below := by
          have hKept := withdraw_sublist h
          rwa [withdraw, if_neg hOwner] at hKept
        rw [due_eq_none fun hMem => hNot (hRest.subset hMem)]
        simp [Option.filter, hOwner]

private theorem due_report_of_ne (h : id ≠ owner) :
    due id (report owner site escapes) = due id escapes := by
  unfold report
  split
  · rfl
  · rw [due, due, List.find?_cons_of_neg (by simpa using h.symm)]

/-- The escapes below a region that catches are not those of regions inside. -/
theorem sublist_of_spared {catching : List Nat}
    (h : (escapes.map Escape.owner).Sublist (catching ++ below))
    (hSpared : ∀ escape ∈ escapes, escape.owner ∉ catching) :
    (escapes.map Escape.owner).Sublist below := by
  induction catching with
  | nil => exact h
  | cons first catching ih =>
      refine ih ?_ fun escape hMem hIn =>
        hSpared escape hMem (List.mem_cons_of_mem _ hIn)
      obtain hRest | ⟨rest, hEq, -⟩ := List.sublist_cons_iff.1 h
      · exact hRest
      · obtain ⟨escape, hMem, hOwner⟩ :=
          List.mem_map.1 (hEq ▸ List.mem_cons_self : first ∈ escapes.map Escape.owner)
        exact absurd (hOwner ▸ List.mem_cons_self) (hSpared escape hMem)

/-- Another escape of a region keeps the escapes in order. -/
theorem report_sublist (h : (escapes.map Escape.owner).Sublist (owner :: below)) :
    ((report owner site escapes).map Escape.owner).Sublist (owner :: below) := by
  unfold report
  split
  · exact h
  · next hFirst =>
      refine List.Sublist.cons_cons owner ?_
      have hKept := withdraw_sublist h
      have hSame : withdraw owner escapes = escapes := by
        cases escapes with
        | nil => rfl
        | cons escape older => exact if_neg (by simpa using hFirst)
      rwa [hSame] at hKept

/-- A region has to report the first of its escapes. -/
theorem due_report (h : (escapes.map Escape.owner).Sublist (owner :: below))
    (hNot : owner ∉ below) :
    due owner (report owner site escapes) = (due owner escapes).or (some site) := by
  rw [due_head h hNot]
  unfold report
  cases escapes with
  | nil => simp [due]
  | cons escape older =>
      by_cases hOwner : escape.owner = owner
      · simp [due, Option.filter, hOwner]
      · simp [due, Option.filter, hOwner]

end

/-! ## Runs that bury no escape -/

namespace Machine

/-- An explicit region is about to be abandoned inside a region that has caught an
exception and still owns an escape.

The escape of the region would then lie below another one that is to be reported further
out, where the region does not look for it. -/
def Buries (m : Machine ν) (ledger : List Extent) : Prop :=
  ∃ visit context escape, m.deed = .abandons visit ∧ m.context = some context ∧
    escape ∈ context.escapes ∧
    escape.owner ∈ catching? ledger

/-- A step of a run that closes in turn and in which no escape is buried under another
one. -/
def Accountable (m : Machine ν) (ledger : List Extent) : Prop :=
  m.InTurn ledger ∧ ¬ m.Buries ledger

instance (m : Machine ν) (ledger : List Extent) : Decidable (m.Buries ledger) :=
  decidable_of_iff
    ((match m.deed, m.context with
      | .abandons _, some context =>
          context.escapes.any fun escape => catching? ledger |>.contains escape.owner
      | _, _ => false) = true) (by
    constructor
    · intro h
      split at h
      · next visit context hDeed hContext =>
          obtain ⟨escape, hMem, hOwner⟩ := List.any_eq_true.1 h
          exact ⟨visit, context, escape, hDeed, hContext, hMem,
            List.contains_iff_mem.1 hOwner⟩
      · cases h
    · rintro ⟨visit, context, escape, hDeed, hContext, hMem, hOwner⟩
      rw [hDeed, hContext]
      exact List.any_eq_true.2 ⟨escape, hMem, List.contains_iff_mem.2 hOwner⟩)

instance (m : Machine ν) (ledger : List Extent) : Decidable (m.Accountable ledger) :=
  inferInstanceAs (Decidable (_ ∧ _))

end Machine

/-- A state of such a run: the escapes are in order, and what reports them is what the
configuration in force says. -/
structure Settled (m : Machine ν) (ledger : List Extent) : Prop where
  lively : Lively m ledger
  owed : ∀ context, m.context = some context → Owed context.escapes ledger
  terms : ∀ context, m.context = some context → ∃ config, m.config = some config ∧
    context.escapeKind = config.escapeKind ∧ context.messageLimit = config.messageLimit

section

variable {m : Machine ν} {ledger : List Extent} {deed : Deed}

/-- A deed that is nothing to escapes closes no protected region. -/
theorem owners_aside (h : deed.IsAside) (hFits : deed.Fits ledger) :
    (owners ledger).Sublist (owners (deed.move.apply ledger)) := by
  have closes {extent : Extent} (hHead : ledger.head? = some extent)
    (hOwner : extent.owner? = none) :
      (owners ledger).Sublist (owners ledger.tail) := by
    obtain ⟨rest, rfl⟩ := List.head?_eq_some_iff.1 hHead
    rw [owners, List.filterMap_cons_none hOwner]
    exact List.Sublist.refl _
  cases deed with
  | closes => exact closes hFits rfl
  | closesScope mark => exact closes hFits rfl
  | unshields mark => exact closes hFits rfl
  | leavesCall entry => exact closes hFits rfl
  | enters visit =>
      change (owners ledger).Sublist (owners (entered visit.explicit visit :: ledger))
      unfold entered
      cases visit.explicit with
      | true => exact List.Sublist.refl _
      | false => exact List.sublist_cons_self _ _
  | catches visit exception =>
      obtain ⟨rest, rfl⟩ := List.head?_eq_some_iff.1 hFits
      exact List.Sublist.refl _
  | handles visit exception name =>
      obtain ⟨rest, rfl⟩ := List.head?_eq_some_iff.1 hFits
      exact List.Sublist.refl _
  | leaves visit unwinding fate => exact h.elim
  | abandons visit => exact h.elim
  | reports visit exception => exact h.elim
  | _ => exact List.Sublist.refl _

private theorem withdraw_sublist_self (owner : Nat) (escapes : List Escape) :
    (withdraw owner escapes).Sublist escapes := by
  cases escapes with
  | nil => exact List.Sublist.refl _
  | cons escape older =>
      rw [withdraw]
      split
      · exact List.sublist_cons_self _ _
      · exact List.Sublist.refl _

/-- A deed keeps the escapes in the order of the regions that own them. -/
theorem Deed.Settles.owed {slots : Slots} {before after : Context}
    (h : deed.Settles slots before after) (hFits : deed.Fits ledger)
    (hOwed : Owed before.escapes ledger)
    (hSpared : ∀ visit, deed = .abandons visit → ∀ escape ∈ before.escapes,
      escape.owner ∉ catching? ledger)
    (hReporter : reporterOf after.regions.live = reporting? (deed.move.apply ledger)) :
    Owed after.escapes (deed.move.apply ledger) := by
  have aside (isAside : deed.IsAside) (hSame : after.escapes = before.escapes) :
      Owed after.escapes (deed.move.apply ledger) := by
    rw [Owed, hSame]
    exact hOwed.trans (owners_aside isAside hFits)
  cases deed with
  | leaves visit unwinding fate =>
      obtain hRegion | ⟨phase, hProtecting⟩ := hFits
      · obtain ⟨rest, rfl⟩ := List.head?_eq_some_iff.1 hRegion
        rw [Owed, show after.escapes = _ from h]
        exact ((withdraw_sublist_self visit.id before.escapes).map Escape.owner).trans
          hOwed
      · obtain ⟨rest, rfl⟩ := List.head?_eq_some_iff.1 hProtecting
        rw [Owed, show after.escapes = _ from h]
        exact withdraw_sublist hOwed
  | abandons visit =>
      obtain ⟨rest, rfl⟩ := List.head?_eq_some_iff.1 hFits
      obtain ⟨owner, hOwner, hEscapes⟩ := h
      change reporterOf after.regions.live = reporting? rest at hReporter
      obtain ⟨outer, hSplit⟩ := owners_split (hReporter.symm.trans hOwner)
      have hKept : (before.escapes.map Escape.owner).Sublist (owners rest) := hOwed
      rw [hSplit] at hKept
      have hBelow := sublist_of_spared hKept (hSpared visit rfl)
      rw [Owed, hEscapes]
      change List.Sublist _ (owners rest)
      rw [hSplit]
      exact (report_sublist hBelow).trans (List.sublist_append_right _ _)
  | reports visit exception =>
      obtain ⟨rest, rfl⟩ := List.head?_eq_some_iff.1 hFits
      obtain ⟨escape, hEscapes, -⟩ := h
      rw [Owed, hEscapes] at hOwed
      exact (List.sublist_cons_self _ _).trans hOwed
  | _ => exact aside trivial h

/-- A step that buries no escape keeps the regions that own one open, and in the order
of the escapes. -/
theorem Settled.step (h : Settled m ledger) (hAccountable : m.Accountable ledger)
    (hGoesOn : m.step.poisoned = false) :
    Settled m.step (m.move.apply ledger) := by
  obtain ⟨hTurn, hBuries⟩ := hAccountable
  have hLively := h.lively.step hTurn hGoesOn
  have hLeads := m.leads_step
  have hFits := h.lively.stands.fits hTurn
  have hMove := (Machine.did_step h.lively.stands.clear hGoesOn).move
  refine ⟨hLively, fun after hAfter => ?_, fun after hAfter => ?_⟩
  · cases hBefore : m.context with
    | none =>
        obtain ⟨config, limits, -, rfl⟩ := hLeads.opened hBefore hAfter
        exact List.nil_sublist _
    | some before =>
        obtain ⟨hSettles, -⟩ :=
          Machine.settles_step h.lively.stands.clear hBefore hAfter hGoesOn
        have hReporter :
            reporterOf after.regions.live = reporting? (m.deed.move.apply ledger) := by
          rw [hLively.marked after hAfter, ← hMove]
          exact reporterOf_marks hLively.stands.sorted
        rw [hMove]
        exact hSettles.owed hFits (h.owed before hBefore)
          (fun visit hDeed escape hMem hOwner =>
          hBuries ⟨visit, before, escape, hDeed, hBefore, hMem, hOwner⟩) hReporter
  · cases hBefore : m.context with
    | none =>
        obtain ⟨config, limits, hConfig, rfl⟩ := hLeads.opened hBefore hAfter
        exact ⟨config, hConfig, rfl, rfl⟩
    | some before =>
        obtain ⟨-, hKind, hLimit⟩ :=
          Machine.settles_step h.lively.stands.clear hBefore hAfter hGoesOn
        obtain ⟨config, hConfig, hTerms⟩ := h.terms before hBefore
        exact ⟨config, hLeads.config config hConfig, hKind.trans hTerms.1,
          hLimit.trans hTerms.2⟩

/-- A thread that starts owes no report. -/
theorem settled_start (process : Process) (auto : Bool) (limits : Option Limits)
    (body : List (Stmt ν)) :
    Settled (Machine.start process auto limits body)
      (Machine.start process auto limits body).opened := by
  obtain ⟨fresh, hNone, hLeads⟩ := Machine.leads_start process auto limits body
  refine ⟨lively_start process auto limits body, fun context hContext => ?_,
    fun context hContext => ?_⟩
  · obtain ⟨config, limits, -, rfl⟩ := hLeads.opened hNone hContext
    exact List.nil_sublist _
  · obtain ⟨config, limits, hConfig, rfl⟩ := hLeads.opened hNone hContext
    exact ⟨config, hConfig, rfl, rfl⟩

private theorem settled_of_reaches {start : Machine ν} {opened : List Extent}
    (h : Reaches Machine.Accountable start opened m ledger)
    (hStart : Settled start opened) : Settled m ledger := by
  induction h with
  | start => exact hStart
  | step before isAllowed goesOn ih => exact ih.step isAllowed goesOn

/-- The regions of a ledger are told apart by their numbers. -/
theorem Lively.owners_nodup (h : Lively m ledger) : (owners ledger).Nodup := by
  rw [← owners_marks h.stands.sorted, List.Nodup, List.pairwise_map]
  exact (h.ordered.1.sublist List.filter_sublist).imp fun hLt => Nat.ne_of_gt hLt

/-- The innermost region is none of those around it. -/
theorem Lively.top_not_owner {extent : Extent} {rest : List Extent} {region : Region}
    (h : Lively m (extent :: rest)) (hMark : extent.mark? = some region) :
    region.visit.id ∉ owners rest := by
  have hOrdered := h.ordered.1
  rw [List.filterMap_cons_some hMark, List.pairwise_cons] at hOrdered
  intro hMem
  obtain ⟨other, hOther, hOwner⟩ := List.mem_filterMap.1 hMem
  cases other with
  | protecting visit phase =>
      have hLt :=
        hOrdered.1 ⟨visit, phase.state⟩ (List.mem_filterMap.2 ⟨_, hOther, rfl⟩)
      exact Nat.ne_of_gt hLt (Option.some.inj hOwner).symm
  | _ => cases hOwner

/-- The innermost region is not the owner of anything below it: numbers are used only
once. -/
theorem Lively.protecting_not_owner {visit : Visit} {phase : Phase} {rest : List Extent}
    (h : Lively m (.protecting visit phase :: rest)) : visit.id ∉ owners rest :=
  h.top_not_owner (show _ = some ⟨visit, phase.state⟩ from rfl)

end

/-! ## What a region has to report -/

/-- What happens to a region that bears on its escapes. -/
inductive News where
  /-- An explicit region is abandoned while the body of the region is the innermost one
  to run. -/
  | abandons (site : Site)
  /-- Its body returns. -/
  | returns
  deriving DecidableEq

/-- What a region has to report after some news. -/
def News.owed (before : Option Site) : News → Option Site
  | .abandons site => before.or (some site)
  | .returns => none

/-- What a region has to report of everything that happened to it: the first region that
was abandoned in its body, until that returns. -/
def owed (news : List News) : Option Site :=
  news.foldl News.owed none

/-- The next step as news of a region. -/
def Machine.news? (id : Nat) (m : Machine ν) (ledger : List Extent) : Option News :=
  match m.returning? with
  | some visit => if visit.id = id then some .returns else none
  | none =>
      match m.deed with
      | .abandons visit =>
          if reporting? ledger = some id then some (.abandons visit.site) else none
      | _ => none

section

variable {m : Machine ν} {ledger : List Extent} {before after : Context} {id : Nat}

private theorem owed_append (news : List News) (more : Option News) :
    owed (news ++ more.toList) = more.toList.foldl News.owed (owed news) :=
  List.foldl_append

/-- A body that returns is that of the innermost region. -/
theorem Machine.InTurn.returning {value : Option ν} {region : Protected ν}
    {below : List (Resumption ν)} (hTurn : m.InTurn ledger)
    (hFocus : m.focus = .deliver value) (hControl : m.control = .body region :: below) :
    ∃ rest, ledger = .protecting region.visit .body :: rest :=
  List.head?_eq_some_iff.1 (hTurn.closing _ (by simp only [closing?, hFocus, hControl]))

/-- What a region that stays open has to report after a step. -/
theorem due_step (h : Settled m ledger) (hAccountable : m.Accountable ledger)
    (hGoesOn : m.step.poisoned = false) (hOpen : id ∈ owners (m.move.apply ledger))
    (hBefore : m.context = some before) (hAfter : m.step.context = some after) :
    due id after.escapes = (m.news? id ledger).toList.foldl News.owed
      (due id before.escapes) := by
  have hClear := h.lively.stands.clear
  have hFits := h.lively.stands.fits hAccountable.1
  have hMove := (Machine.did_step hClear hGoesOn).move
  have hNodup := h.lively.owners_nodup
  have hOwed : Owed before.escapes ledger := h.owed before hBefore
  obtain ⟨hSettles, -⟩ := Machine.settles_step hClear hBefore hAfter hGoesOn
  cases m.minds hClear with
  | aside isAside isRunning =>
      have hSame : after.escapes = before.escapes := by
        generalize m.deed = deed at isAside hSettles
        cases deed <;> first | exact hSettles | exact isAside.elim
      have hNone : m.news? id ledger = none := by
        unfold Machine.news?
        rw [isRunning]
        generalize m.deed = deed at isAside
        cases deed <;> first | rfl | exact isAside.elim
      rw [hSame, hNone]
      rfl
  | @claims value region below hFocus hControl =>
      obtain ⟨rest, rfl⟩ := hAccountable.1.returning hFocus hControl
      have hNot : region.visit.id ∉ owners rest := (List.nodup_cons.1 hNodup).1
      have hNews : m.news? id (.protecting region.visit .body :: rest) =
          if region.visit.id = id then some .returns else none := by
        simp only [Machine.news?, Machine.returning?, hFocus, hControl]
      rw [hNews]
      obtain ⟨left, hLeft, -,
          ⟨hOther, -, -, hDues⟩ | ⟨escape, older, hEscapes, hOwn, hDues, -⟩⟩ :=
        Machine.claim_step hFocus hControl hBefore hGoesOn
      · obtain rfl := Option.some.inj (hAfter.symm.trans hLeft)
        rw [show after.escapes = before.escapes from congrArg Dues.escapes hDues]
        split
        · next hSame =>
            subst hSame
            rw [due_head hOwed hNot]
            cases hHead : before.escapes.head? with
            | none => rfl
            | some newest =>
                rw [hHead] at hOther
                simp [Option.filter, show ¬ newest.owner = region.visit.id by
                  simpa using hOther, News.owed]
        · rfl
      · obtain rfl := Option.some.inj (hAfter.symm.trans hLeft)
        rw [show after.escapes = older from congrArg Dues.escapes hDues]
        have hOlder : older = withdraw region.visit.id before.escapes := by
          rw [hEscapes, withdraw, if_pos hOwn]
        split
        · next hSame =>
            subst hSame
            rw [hOlder, due_eq_none fun hMem =>
              hNot ((withdraw_sublist hOwed).subset hMem)]
            rfl
        · next hOther => rw [hOlder, due_withdraw (Ne.symm hOther)]; rfl
  | @leaves visit unwinding fate _ _ hDeed hStep hContext hEvents hNext isRunning =>
      rw [hDeed] at hSettles hFits hMove
      have hNone : m.news? id ledger = none := by
        simp only [Machine.news?, isRunning, hDeed]
      rw [show after.escapes = _ from hSettles, hNone, due_withdraw]
      · rfl
      · rintro rfl
        rw [hMove] at hOpen
        obtain hRegion | ⟨phase, hProtecting⟩ := hFits
        · obtain ⟨rest, rfl⟩ := List.head?_eq_some_iff.1 hRegion
          exact h.lively.top_not_owner rfl hOpen
        · obtain ⟨rest, rfl⟩ := List.head?_eq_some_iff.1 hProtecting
          exact h.lively.top_not_owner rfl hOpen
  | @abandons visit _ hDeed hStep hNext isRunning =>
      rw [hDeed] at hSettles hFits hMove
      obtain ⟨rest, rfl⟩ := List.head?_eq_some_iff.1 hFits
      obtain ⟨owner, hOwner, hEscapes⟩ := hSettles
      have hReporting : reporting? rest = some owner := by
        have hLively := h.lively.step hAccountable.1 hGoesOn
        rw [← hOwner, hLively.marked after hAfter]
        have hRest := reporterOf_marks hLively.stands.sorted
        rw [hMove] at hRest ⊢
        exact hRest.symm
      have hNews : m.news? id (.region visit :: rest) = if owner = id then
          some (.abandons visit.site) else none := by
        simp only [Machine.news?, isRunning, hDeed, reporting?, hReporting,
          Option.some.injEq]
      rw [hEscapes, hNews]
      split
      · next hSame =>
          subst hSame
          obtain ⟨outer, hSplit⟩ := owners_split hReporting
          have hKept : (before.escapes.map Escape.owner).Sublist (owners rest) := hOwed
          have hRest : (owners rest).Nodup := hNodup
          rw [hSplit] at hKept hRest
          have hBelow : (before.escapes.map Escape.owner).Sublist (owner :: outer) :=
            sublist_of_spared hKept fun escape hMem hCatching =>
              hAccountable.2 ⟨visit, before, escape, hDeed, hBefore, hMem, hCatching⟩
          exact due_report hBelow (List.nodup_cons.1 (List.nodup_append.1 hRest).2.1).1
      · next hOther => exact due_report_of_ne (Ne.symm hOther)

end

/-! ## The life of a region -/

/-- Code comes to be in the body of a region only when the region is entered. A stage
that is new is no body, or the body of a region that is entered. -/
theorem Restages.body {closing : Option Extent} {deed : Deed}
    {before after : List Stage} {stage : Stage} (h : Restages closing deed before after)
    (hMem : stage ∈ after) (hBody : stage.position = .body) :
    stage ∈ before ∨ deed = .enters stage.visit := by
  have below {top old : Stage} {stages : List Stage} (hIn : stage ∈ top :: stages)
    (hOther : top.position ≠ .body) :
      stage ∈ old :: stages := by
    rcases List.mem_cons.1 hIn with rfl | hBelow
    · exact absurd hBody hOther
    · exact List.mem_cons_of_mem _ hBelow
  cases h with
  | silent => exact .inl hMem
  | enters =>
      rcases List.mem_cons.1 hMem with rfl | hBelow
      · exact .inr rfl
      · exact .inl hBelow
  | opens => exact .inl hMem
  | leaves => exact .inl (List.mem_cons_of_mem _ hMem)
  | gives => exact .inl hMem
  | catches => exact .inl (below hMem (by simp))
  | reports => exact .inl (below hMem (by simp))
  | handles => exact .inl (below hMem (by simp))
  | declines => exact .inl (below hMem (by simp))
  | returns => exact .inl (below hMem (by simp))

/-- An open region in a run, and everything that has happened to it. -/
structure Watched (visit : Visit) (outer : List Extent) (news : List News)
    (m : Machine ν) (ledger : List Extent) : Prop where
  isOpen : ∃ inner phase, ledger = inner ++ .protecting visit phase :: outer
  due : ∀ context, m.context = some context → Unwinding.due visit.id context.escapes =
    owed news
  once : news.count .returns ≤ 1
  /-- Once the body has returned, it does not run any more. -/
  returned : .returns ∈ news → ∀ stage ∈ m.stages, stage.visit.id = visit.id →
    stage.position ≠ .body

section

variable {m : Machine ν} {visit : Visit} {outer ledger : List Extent} {news : List News}

private theorem Watched.owner (h : Watched visit outer news m ledger) :
    visit.id ∈ owners ledger := by
  obtain ⟨inner, phase, rfl⟩ := h.isOpen
  exact List.mem_filterMap.2 ⟨.protecting visit phase, by simp, rfl⟩

/-- The region stays open until the ledger is as short as it was before. -/
theorem Watched.stays (h : Watched visit outer news m ledger)
    (hOpen : outer.length < (m.move.apply ledger).length) :
    ∃ inner phase, m.move.apply ledger = inner ++ .protecting visit phase :: outer := by
  obtain ⟨inner, phase, rfl⟩ := h.isOpen
  have hSplit : inner ++ .protecting visit phase :: outer =
      (inner ++ [.protecting visit phase]) ++ outer := by simp
  rw [hSplit, Move.apply_append _ _ (by simp)] at hOpen ⊢
  obtain hNil | ⟨above, next, hLeft⟩ := Move.apply_region m.move inner visit phase
  · rw [hNil] at hOpen
    exact absurd hOpen (Nat.lt_irrefl _)
  · exact ⟨above, next, by rw [hLeft]; simp⟩

/-- The stage of the body that returns. -/
theorem stages_returning {value : Option ν} {region : Protected ν}
    {below : List (Resumption ν)} (hFocus : m.focus = .deliver value)
    (hControl : m.control = .body region :: below) :
    m.stages = ⟨region.visit, .body⟩ :: stagesOf below := by
  rw [Machine.stages, hFocus, hControl]
  rfl

/-- A body that has returned does not run any more. The code that waits below it is in
the regions around, and those have numbers of their own. -/
theorem Settled.body_returned (h : Settled m ledger) (hTurn : m.InTurn ledger)
    {value : Option ν} {region : Protected ν} {below : List (Resumption ν)}
    (hFocus : m.focus = .deliver value) (hControl : m.control = .body region :: below)
    (hGoesOn : m.step.poisoned = false) :
    ∀ stage ∈ m.step.stages, stage.visit.id = region.visit.id →
      stage.position ≠ .body := by
  obtain ⟨rest, rfl⟩ := hTurn.returning hFocus hControl
  have hStaged := h.lively.staged
  rw [stages_returning hFocus hControl] at hStaged
  have hBelow (stage : Stage) (hMem : stage ∈ stagesOf below) :
      stage.visit.id ≠ region.visit.id := by
    intro hId
    cases hStaged with
    | cons hTop hRest =>
        obtain ⟨phase, hAround, -⟩ := Staged.of_stage hRest hMem
        exact h.lively.top_not_owner rfl
          (List.mem_filterMap.2 ⟨_, hAround, congrArg some hId⟩)
  cases hBefore : m.context with
  | none => cases h.lively.stands.closed hBefore
  | some before =>
      obtain ⟨after, -, hLeft, hCases⟩ :=
        Machine.claim_step hFocus hControl hBefore hGoesOn
      have hStages : ∃ position, position ≠ .body ∧ m.step.stages =
          ⟨region.visit, position⟩ :: stagesOf below := by
        unfold Machine.stages
        obtain ⟨-, -, hNext, -⟩ | ⟨escape, older, -, -, -, -, hNext⟩ := hCases
        · exact ⟨.returned, by simp, by rw [hNext, hLeft]; rfl⟩
        · exact ⟨.clauses, by simp, by rw [hNext, hLeft]; rfl⟩
      obtain ⟨position, hPosition, hStages⟩ := hStages
      intro stage hMem hId
      rcases List.mem_cons.1 (hStages ▸ hMem) with rfl | hWaits
      · exact hPosition
      · exact absurd hId (hBelow stage hWaits)

/-- One step of a watched region. Two questions decide what becomes of its escapes:
whether the body of the region returns with this step, and whether the step abandons a
region in that body. -/
private theorem Watched.step (h : Watched visit outer news m ledger)
    (hSettled : Settled m ledger) (hAccountable : m.Accountable ledger)
    (hGoesOn : m.step.poisoned = false)
    (hOpen : outer.length < (m.move.apply ledger).length) :
    Watched visit outer (news ++ (m.news? visit.id ledger).toList)
      m.step (m.move.apply ledger) := by
  have hClear := hSettled.lively.stands.clear
  have hStays := h.stays hOpen
  have hOwner : visit.id ∈ owners (m.move.apply ledger) := by
    obtain ⟨inner, phase, hLedger⟩ := hStays
    rw [hLedger]
    exact List.mem_filterMap.2 ⟨.protecting visit phase, by simp, rfl⟩
  have hReturns : m.news? visit.id ledger = some .returns ↔
      m.returning?.map Visit.id = some visit.id := by
    unfold Machine.news?
    cases m.returning? with
    | none =>
        dsimp only
        split
        · split <;> simp
        · simp
    | some returning => simp
  have hNew (hNews : m.news? visit.id ledger = some .returns) :
    ∃ value region below, m.focus = .deliver value ∧
      m.control = .body region :: below ∧ region.visit.id = visit.id := by
    obtain ⟨returning, hReturning, hId⟩ := Option.map_eq_some_iff.1 (hReturns.1 hNews)
    obtain ⟨value, region, below, hFocus, hControl, rfl⟩ :=
      Machine.exists_returns hReturning
    exact ⟨value, region, below, hFocus, hControl, hId⟩
  refine ⟨hStays, fun after hAfter => ?_, ?_, fun hMem => ?_⟩
  · cases hBefore : m.context with
    | none =>
        have hNil := hSettled.lively.stands.closed hBefore
        rw [hNil] at h
        cases h.owner
    | some before =>
        rw [due_step hSettled hAccountable hGoesOn hOwner hBefore hAfter,
          h.due before hBefore, owed_append]
  · rw [List.count_append]
    by_cases hNews : m.news? visit.id ledger = some .returns
    · obtain ⟨value, region, below, hFocus, hControl, hId⟩ := hNew hNews
      have hFirst : .returns ∉ news := fun hMem =>
        h.returned hMem ⟨region.visit, .body⟩
          (stages_returning hFocus hControl ▸ List.mem_cons_self) hId rfl
      rw [List.count_eq_zero.2 hFirst, hNews]
      exact Nat.le_refl _
    · have hNone : (m.news? visit.id ledger).toList.count .returns = 0 := by
        rw [List.count_eq_zero, Option.mem_toList]
        exact hNews
      rw [hNone]
      exact h.once
  · by_cases hNews : m.news? visit.id ledger = some .returns
    · obtain ⟨value, region, below, hFocus, hControl, hId⟩ := hNew hNews
      exact hId ▸ hSettled.body_returned hAccountable.1 hFocus hControl hGoesOn
    · have hOld : .returns ∈ news := by
        rcases List.mem_append.1 hMem with hOld | hIn
        · exact hOld
        · exact absurd (Option.mem_toList.1 hIn) hNews
      intro stage hStage hId hBody
      have hShows := Machine.shows_step hClear hSettled.lively.hasToldAll hGoesOn
      obtain hBefore | hEnters := hShows.restages.body hStage hBody
      · exact h.returned hOld stage hBefore hId hBody
      · have hLively := hSettled.lively.step hAccountable.1 hGoesOn
        rw [(Machine.did_step hClear hGoesOn).move, hEnters] at hLively
        exact hLively.top_not_owner (mark_entered stage.visit) (hId ▸ h.owner)

end

/-- What becomes of the escapes of an open region, by what has happened to it since it
was entered.

News are noted in the order in which they happen to the region, so that each of the
clauses can be read as a statement about a list. -/
structure Reckoning (visit : Visit) (news : List News) (m : Machine ν) : Prop where
  /-- What waits for the region is what it has to report. -/
  due : ∀ context, m.context = some context → Unwinding.due visit.id context.escapes =
    owed news
  /-- Its body returns once at most. -/
  once : news.count .returns ≤ 1
  /-- When the body returns, the region reports the first region that was abandoned in
  it, or goes on with the value. -/
  reports : ∀ value region below context, m.focus = .deliver value →
    m.control = .body region :: below →
    region.visit.id = visit.id → m.context = some context → m.step.poisoned = false →
      match owed news with
      | none => m.step.focus = .leave region (.ok value)
      | some site =>
          ∃ config exception, m.config = some config ∧ m.step.focus =
            .offer region exception ∧
          exception.kind = (config.escapeKind.bind m.registry.slots.get?).getD
            .illegalEscape ∧
          exception.message =
            (Bounded.write { limit := config.messageLimit }
            (escapeText ⟨site, visit.id⟩)).1.text ∧
          exception.origin = site ∧ exception.frames = context.frames.toList
  /-- When the region is left, it drops what it has not reported and tells so, and
  nothing is left of it. -/
  drops : ∀ unwinding fate, m.deed = .leaves visit unwinding fate →
    m.step.poisoned = false →
    m.step.dropped = (owed news).toList.map (fun site => (site, visit.site)) ++
      m.dropped ∧
      ∀ after, m.step.context = some after → ∀ escape ∈ after.escapes,
        escape.owner ≠ visit.id

section

variable {m : Machine ν} {visit : Visit} {outer ledger : List Extent} {news : List News}

/-- What the innermost region drops is what it has to report. -/
theorem dropping_eq_due {escapes : List Escape} {below : List Nat}
    (h : (escapes.map Escape.owner).Sublist (visit.id :: below))
    (hNot : visit.id ∉ below) :
    dropping visit escapes = (due visit.id escapes).toList.map
      fun site => (site, visit.site) := by
  rw [due_head h hNot]
  cases escapes with
  | nil => rfl
  | cons escape older =>
      by_cases hOwner : escape.owner = visit.id
      · simp [dropping, Option.filter, hOwner]
      · simp [dropping, Option.filter, hOwner]

private theorem Watched.reckoning (h : Watched visit outer news m ledger)
    (hSettled : Settled m ledger) (hAccountable : m.Accountable ledger) :
    Reckoning visit news m where
  due := h.due
  once := h.once
  reports := by
    intro value region below context hFocus hControl hId hContext hGoesOn
    obtain ⟨rest, rfl⟩ := hAccountable.1.returning hFocus hControl
    have hNot := hSettled.lively.protecting_not_owner
    have hDue := due_head (hSettled.owed context hContext) hNot
    rw [hId, h.due context hContext] at hDue
    obtain ⟨config, hConfig, hKind, hLimit⟩ := hSettled.terms context hContext
    obtain ⟨after, -, -,
        ⟨hOther, -, hFocus, -⟩ | ⟨escape, older, hEscapes, hOwn, -, -, hFocus⟩⟩ :=
      Machine.claim_step hFocus hControl hContext hGoesOn
    · have hNone : owed news = none := by
        rw [hDue]
        cases hHead : context.escapes.head? with
        | none => rfl
        | some newest =>
            rw [hHead, hId] at hOther
            simp [Option.filter, show ¬ newest.owner = visit.id by simpa using hOther]
      rw [hNone]
      exact hFocus
    · have hSome : owed news = some escape.site := by
        rw [hDue, hEscapes]
        simp [Option.filter, hOwn.trans hId]
      rw [hSome]
      refine ⟨config, _, hConfig, hFocus, ?_, ?_, rfl, ?_⟩
      · rw [← hKind]
        rfl
      · rw [← hLimit]
        rfl
      · change
          (context.frames.live.drop
          (context.frames.live.length - context.frames.live.length)).reverse = _
        rw [Nat.sub_self, List.drop_zero]
        rfl
  drops := by
    intro unwinding fate hDeed hGoesOn
    have hClear := hSettled.lively.stands.clear
    have hFits := hSettled.lively.stands.fits hAccountable.1
    rw [hDeed] at hFits
    have hOwner := h.owner
    obtain ⟨phase, rest, rfl⟩ : ∃ phase rest,
        ledger = .protecting visit phase :: rest := by
      obtain hRegion | ⟨phase, hProtecting⟩ := hFits
      · obtain ⟨rest, rfl⟩ := List.head?_eq_some_iff.1 hRegion
        exact absurd hOwner
          (hSettled.lively.top_not_owner
          (show (Extent.region visit).mark? = _ from rfl))
      · obtain ⟨rest, rfl⟩ := List.head?_eq_some_iff.1 hProtecting
        exact ⟨phase, rest, rfl⟩
    have hNot := hSettled.lively.protecting_not_owner
    cases hBefore : m.context with
    | none => cases hSettled.lively.stands.closed hBefore
    | some before =>
        have hOwed := hSettled.owed before hBefore
        refine ⟨?_, fun after hAfter escape hMem hId => ?_⟩
        · rw [Machine.dropped_step hClear hSettled.lively.hasToldAll hDeed hBefore
            hGoesOn, dropping_eq_due hOwed hNot, h.due before hBefore]
        · obtain ⟨hSettles, -⟩ := Machine.settles_step hClear hBefore hAfter hGoesOn
          rw [hDeed] at hSettles
          rw [show after.escapes = _ from hSettles] at hMem
          exact hNot
            ((withdraw_sublist hOwed).subset (List.mem_map.2 ⟨escape, hMem, hId⟩))

/-- A region that is entered has nothing to report. -/
theorem watched_entered {levels : Nat} {site : Site} {mode : Mode}
    {clauses : List (Clause ν)} {code : List (Stmt ν)} (hSettled : Settled m ledger)
    (hTurn : m.InTurn ledger)
    (hFocus : m.focus = .exec (.protect levels site mode clauses code))
    (hGoesOn : m.step.poisoned = false)
    (hMove : m.move = .opens (.protecting visit .body)) :
    Watched visit ledger [] m.step (m.move.apply ledger) where
  isOpen := ⟨[], .body, by rw [hMove]; rfl⟩
  due := by
    intro after hAfter
    have hLively := hSettled.lively.step hTurn hGoesOn
    rw [hMove] at hLively
    have hNot := hLively.protecting_not_owner
    have hDeed : m.deed.IsAside := by
      simp only [Machine.deed, hFocus, Machine.deedOf]
      exact Machine.aside_answering fun _ => trivial
    cases hBefore : m.context with
    | none =>
        obtain ⟨config, limits, -, rfl⟩ := m.leads_step.opened hBefore hAfter
        rfl
    | some before =>
        obtain ⟨hSettles, -⟩ :=
          Machine.settles_step hSettled.lively.stands.clear hBefore hAfter hGoesOn
        have hSame : after.escapes = before.escapes := by
          generalize m.deed = deed at hDeed hSettles
          cases deed <;> first | exact hSettles | exact hDeed.elim
        rw [hSame]
        exact due_eq_none fun hMem => hNot ((hSettled.owed before hBefore).subset hMem)
  once := Nat.zero_le _
  returned := fun hMem => nomatch hMem

/-- Every state of a run in which a region stays open. -/
theorem watched_of_notes {start : Machine ν} {opened : List Extent}
    (h : Notes (fun m ledger => m.Accountable ledger ∧ outer.length < ledger.length)
      (Machine.news? visit.id) start opened news m ledger)
    (hSettled : Settled start opened) (hWatched : Watched visit outer [] start opened) :
    Settled m ledger ∧
      (outer.length < ledger.length → Watched visit outer news m ledger) := by
  induction h with
  | start => exact ⟨hSettled, fun _ => hWatched⟩
  | step before isAllowed goesOn ih =>
      exact ⟨ih.1.step isAllowed.1 goesOn,
        (ih.2 isAllowed.2).step ih.1 isAllowed.1 goesOn⟩

end

/-- The escapes of a run that closes in turn and in which no explicit region is
abandoned inside a region that has caught an exception and still owns an escape. In each
of its states every escape belongs to a protected region on the region stack, no two to
the same, and they lie in the order of the regions; so none waits when the context is
closed. And for every region that is entered: as long as it is open, what waits for it
is the first explicit region that was abandoned while its body was the innermost one to
run; when its body returns it raises the exception of that escape, once, and nothing if
there was none; and when it is left, normally or not, it drops what it has not reported,
tells so, and leaves nothing behind. -/
theorem escapes_accounted {process : Process} {auto : Bool} {limits : Option Limits}
    {body : List (Stmt ν)} {m : Machine ν} {ledger : List Extent}
    (h : Reaches Machine.Accountable (.start process auto limits body)
      (Machine.start process auto limits body).opened m ledger) :
    (∀ context, m.context = some context →
      (context.escapes.map Escape.owner).Sublist
          ((context.regions.live.filter fun region => !region.visit.explicit).map
            fun region => region.visit.id) ∧
        (context.escapes.map Escape.owner).Nodup ∧
          (m.Accountable ledger → m.deed = .closes → context.escapes = [])) ∧
    ∀ levels site mode clauses code,
      m.focus = .exec (.protect levels site mode clauses code) → m.Accountable ledger →
      m.step.poisoned = false → ∃ visit, m.move = .opens (.protecting visit .body) ∧
        ∀ news later inside,
          Notes (fun m inside => m.Accountable inside ∧ ledger.length < inside.length)
            (Machine.news? visit.id) m.step (m.move.apply ledger) news later inside →
          ledger.length < inside.length → later.Accountable inside →
            Reckoning visit news later := by
  have hSettled := settled_of_reaches h (settled_start process auto limits body)
  constructor
  · intro context hContext
    have hOwed := hSettled.owed context hContext
    have hMarked := hSettled.lively.marked context hContext
    refine ⟨?_, hOwed.nodup hSettled.lively.owners_nodup,
      fun hAccountable hCloses => ?_⟩
    · rw [hMarked, owners_marks hSettled.lively.stands.sorted]
      exact hOwed
    · have hFits := hSettled.lively.stands.fits hAccountable.1
      rw [hCloses] at hFits
      obtain ⟨rest, rfl⟩ := List.head?_eq_some_iff.1 hFits
      obtain ⟨floor, hLayered, -⟩ := hSettled.lively.stands.nested context hContext
      obtain rfl := (List.cons.inj hLayered.of_thread).2
      exact List.map_eq_nil_iff.1 (List.sublist_nil.1 hOwed)
  · intro levels site mode clauses code hFocus hAccountable hGoesOn
    obtain ⟨visit, hMove⟩ := Machine.move_of_protect hFocus hGoesOn
    refine ⟨visit, hMove, fun news later inside hNotes hOpen hLater => ?_⟩
    have hEntered := hSettled.step hAccountable hGoesOn
    obtain ⟨hThen, hWatched⟩ :=
      watched_of_notes hNotes hEntered
      (watched_entered hSettled hAccountable.1 hFocus hGoesOn hMove)
    exact (hWatched hOpen).reckoning hThen hLater

/-- Two explicit regions are abandoned in the body of a region, which then returns. -/
def abandonsTwo : List (Stmt Nat) :=
  [.protect 1 ⟨"main", 1, "main"⟩ .run catchAll
    [.acquire "first" (.region ⟨"main", 2, "main"⟩) 1, .release "first" .drop,
      .acquire "second" (.region ⟨"main", 3, "main"⟩) 1, .release "second" .drop]]

/-- The region of `abandonsTwo` raises the exception of the first one. -/
theorem escapes_accounted_abandonsTwo :
    ∃ (visit : Visit) (news : List News) (later : Machine Nat),
      Reckoning visit news later ∧
      owed news = some ⟨"main", 2, "main"⟩ ∧ ∃ region exception,
        later.step.focus = .offer region exception ∧
        exception.kind = .illegalEscape ∧ exception.origin = ⟨"main", 2, "main"⟩ := by
  let start : Machine Nat := .start {} true none abandonsTwo
  have hEntering :
      Reaches Machine.Accountable start start.opened start.step
      (start.move.apply start.opened) :=
    .step .start (by decide +kernel) (by decide +kernel)
  obtain ⟨visit, hMove, hReckoning⟩ :=
    (escapes_accounted hEntering).2 _ _ _ _ _ rfl (by decide +kernel)
    (by decide +kernel)
  obtain rfl : visit = ⟨1, ⟨"main", 1, "main"⟩, {}, false⟩ := by
    cases hMove
    rfl
  obtain ⟨later, inside, hInside, hTest⟩ := Reaches.of_follow 19
    (fun later inside => later.returning?.any (fun returning => returning.id == 1) &&
      decide (1 < inside.length) && decide (later.Accountable inside) &&
      !later.step.poisoned && decide (later.config.bind Config.escapeKind = none) &&
      later.context.any fun context =>
      decide (due 1 context.escapes = some ⟨"main", 2, "main"⟩))
    (show (follow (fun m inside => m.Accountable inside ∧ 1 < inside.length)
      19 start.step.step (start.step.move.apply [.thread])).any _ = true by
      decide +kernel)
  simp only [Bool.and_eq_true, decide_eq_true_eq, Bool.not_eq_true', Option.any_eq_true]
    at hTest
  obtain ⟨⟨⟨⟨⟨⟨returning, hReturning, hFirst⟩, hOpen⟩, hAccountable⟩, hGoesOn⟩, hUsual⟩,
      context, hContext, hDue⟩ := hTest
  obtain ⟨news, hNotes⟩ := hInside.notes (Machine.news? 1)
  have hLast := hReckoning news later inside hNotes hOpen hAccountable
  have hOwed : owed news = some ⟨"main", 2, "main"⟩ :=
    (hLast.due context hContext).symm.trans hDue
  obtain ⟨value, region, below, hFocus, hControl, rfl⟩ :=
    Machine.exists_returns hReturning
  have hReports :=
    hLast.reports value region below context hFocus hControl (beq_iff_eq.1 hFirst)
    hContext hGoesOn
  rw [hOwed] at hReports
  obtain ⟨config, exception, hConfig, hOffer, hKind, -, hOrigin, -⟩ := hReports
  rw [hConfig, Option.bind_some] at hUsual
  rw [hUsual] at hKind
  exact ⟨_, news, later, hLast, hOwed, region, exception, hOffer, hKind, hOrigin⟩

/-- A region's body abandons an explicit region and raises, and its handler abandons
another one. -/
def twoEscapes : List (Stmt Nat) :=
  [.protect 1 ⟨"main", 1, "outer"⟩ .run catchAll
    [.protect 1 ⟨"main", 2, "inner"⟩ .run
      [.mk (.direct .stackExhausted)
        "e" [.acquire "second" (.region ⟨"main", 3, "inner"⟩) 1,
        .release "second" .drop]]
      [.acquire "first" (.region ⟨"main", 4, "inner"⟩) 1, .release "first" .drop,
        .raise (.direct .stackExhausted) ⟨"main", 5, "inner"⟩ []]]]

/-- The stacks are all that a region restores: of the escapes it only looks at the
newest, and when that is to be reported further out, its own stays behind even if
nothing is open any more.

The run is strict, so nothing else has gone wrong in it. -/
theorem twoEscapes_strands :
    ∃ m context,
      Reaches Machine.Strict (.start {} true none twoEscapes)
        (Machine.start {} true none twoEscapes).opened m [.thread] ∧
        m.context = some context ∧ context.regions.depth = 0 ∧ context.escapes =
          [⟨⟨"main", 4, "inner"⟩, 2⟩] := by
  obtain ⟨m, ledger, hReaches, hTest⟩ := Reaches.of_follow 40
    (fun (m : Machine Nat) (ledger : List Extent) => decide (ledger = [.thread]) &&
      m.context.any fun (context : Context) =>
      decide (context.regions.depth = 0) &&
        decide (context.escapes = [⟨⟨"main", 4, "inner"⟩, 2⟩]))
    (show (follow Machine.Strict 40 (.start {} true none twoEscapes)
      (Machine.start {} true none twoEscapes).opened).any _ = true by decide +kernel)
  rw [Bool.and_eq_true, decide_eq_true_eq, Option.any_eq_true] at hTest
  obtain ⟨rfl, context, hContext, hEscapes⟩ := hTest
  rw [Bool.and_eq_true, decide_eq_true_eq, decide_eq_true_eq] at hEscapes
  exact ⟨m, context, hReaches, hContext, hEscapes⟩

end Unwinding
