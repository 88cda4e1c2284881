import Mathlib.Data.Finset.Card
import Mathlib.Data.Finset.Range
import Mathlib.Data.Nat.Find
import Mathlib.Logic.Function.Iterate
import Mathlib.Logic.Relation
import Unwinding.Kind.Registry

/-!
# Ancestry

`KindTable.isA` walks from a kind along parent links and gives up after as many steps as
the table has places. It neither notices that it goes round in a cycle nor remembers
where it has been, so what its answer means has to be argued from the table:

* every link that a declaration writes leads to a place of the table (`Closed`),
  whatever the slots held;
* a kind that is met at all is met in fewer steps than there are places
  (`exists_lt_size_of_iterate`).

The first is an invariant of declarations, the second is the pigeonhole principle on the
kinds that the walk visits.

## Main results

* `Reachable.sane` : the invariant, for every sequence of declarations, each with slots
  of its own.
* `Closed.isA_true_iff`, `Closed.isA_false_iff`, `Closed.isA_error_iff` : the answers of
  a closed table.
* `Reachable.isA_iff_path` : ancestry is reachability along parent links.
-/

namespace Unwinding

private theorem Kind.eq_of_id_eq {first second : Kind} (h : first.id = second.id) :
    first = second := by
  cases first
  cases second
  exact congrArg Kind.mk h

namespace KindTable

variable {table : KindTable} {kind child parent candidate ancestor : Kind}
    {entry : KindEntry}

/-! ## The places of a table -/

/-- The kinds a table answers for: those of its places that are not placeholders. -/
def Has (table : KindTable) (kind : Kind) : Prop :=
  Kind.placeholders ≤ kind.id ∧ kind.id < table.size

instance : Decidable (table.Has kind) :=
  inferInstanceAs (Decidable (_ ∧ _))

/-- A table answers for a kind with the entry at its place, if the place is there and is
no placeholder. -/
theorem entry_eq_ok_iff :
    table.entry kind = .ok entry ↔
      Kind.placeholders ≤ kind.id ∧ table.entries[kind.id]? = some entry := by
  unfold KindTable.entry
  by_cases hId : kind.id < Kind.placeholders
  · simp only [if_pos hId, reduceCtorEq, false_iff, not_and]
    intro hLe
    omega
  · have hLe : Kind.placeholders ≤ kind.id := by omega
    simp only [if_neg hId, hLe, true_and]
    cases table.entries[kind.id]? with
    | none => simp
    | some found => simp

/-- A table answers for every kind that it has. -/
theorem Has.exists_entry (h : table.Has kind) : ∃ entry, table.entry kind = .ok entry :=
  ⟨table.entries.get ⟨kind.id, h.2⟩,
    entry_eq_ok_iff.2 ⟨h.1, List.getElem?_eq_getElem h.2⟩⟩

/-- And it has every kind that it answers for. -/
theorem has_of_entry (h : table.entry kind = .ok entry) : table.Has kind := by
  have hEntry := entry_eq_ok_iff.1 h
  exact ⟨hEntry.1, (List.getElem?_eq_some_iff.1 hEntry.2).1⟩

/-- For any other kind it says which number is out of bounds. -/
theorem entry_of_not_has (h : ¬ table.Has kind) :
    table.entry kind = .error (.kindOutOfBounds kind.id) := by
  unfold KindTable.entry
  by_cases hId : kind.id < Kind.placeholders
  · rw [if_pos hId]
  · have hSize : table.entries.length ≤ kind.id := by
      by_contra hLt
      exact h ⟨by omega, by unfold size; omega⟩
    rw [if_neg hId, List.getElem?_eq_none hSize]

/-! ## What a declaration does to the places -/

/-- To append makes one place more. -/
@[simp] theorem size_append (table : KindTable) (parent : Option Kind)
    (declaration : Option Declaration) :
    (table.append parent declaration).size = table.size + 1 := by
  simp [append, size]

/-- To complete an entry makes no place. -/
@[simp] theorem size_complete (table : KindTable) (kind parent : Kind)
    (declaration : Declaration) :
    (table.complete kind parent declaration).size = table.size := by
  simp [complete, size]

/-- To seal a table makes no place. -/
@[simp] theorem size_sealed (table : KindTable) : table.sealed.size = table.size :=
  rfl

/-- What a table has, it has when another place is appended. -/
theorem Has.append (h : table.Has kind) (parent : Option Kind)
    (declaration : Option Declaration) :
    (table.append parent declaration).Has kind := by
  have hSize := table.size_append parent declaration
  exact ⟨h.1, by have := h.2; omega⟩

/-- To complete an entry changes nothing about which kinds there are. -/
@[simp] theorem has_complete (declaration : Declaration) :
    (table.complete child parent declaration).Has kind ↔ table.Has kind := by
  simp [Has]

/-- The entries that were there stay as they were when a place is appended. -/
theorem entry_append_of_has (h : table.Has kind) (parent : Option Kind)
    (declaration : Option Declaration) :
    (table.append parent declaration).entry kind = table.entry kind := by
  have hLt : kind.id < table.entries.length := h.2
  unfold KindTable.entry
  simp only [KindTable.append, List.getElem?_append_left hLt]

/-- The new place is a root of its own unless a parent is given. -/
theorem entry_append_next (hSize : Kind.placeholders ≤ table.size)
    (parent : Option Kind) (declaration : Option Declaration) :
    (table.append parent declaration).entry table.nextKind =
      .ok ⟨parent.getD table.nextKind, declaration⟩ := by
  refine entry_eq_ok_iff.2 ⟨hSize, ?_⟩
  simp [KindTable.append, nextKind, size]

/-- The only new place of a longer table is the last one. -/
theorem has_append_iff (hSize : Kind.placeholders ≤ table.size) (parent : Option Kind)
    (declaration : Option Declaration) :
    (table.append parent declaration).Has kind ↔
      table.Has kind ∨ kind = table.nextKind := by
  have hNext : kind = table.nextKind ↔ kind.id = table.size := by
    cases kind
    simp [nextKind]
  rw [hNext]
  simp only [Has, size_append]
  omega

/-- An entry that is completed says what was declared. -/
theorem entry_complete_self (h : table.Has kind) (parent : Kind)
    (declaration : Declaration) :
    (table.complete kind parent declaration).entry kind =
      .ok ⟨parent, some declaration⟩ := by
  refine entry_eq_ok_iff.2 ⟨h.1, ?_⟩
  have hLt : kind.id < table.entries.length := h.2
  simp [complete, hLt]

/-- The other entries stay as they were. -/
theorem entry_complete_of_ne (hNe : kind ≠ child) (parent : Kind)
    (declaration : Declaration) :
    (table.complete child parent declaration).entry kind = table.entry kind := by
  have hId : child.id ≠ kind.id := fun hEq => hNe (Kind.eq_of_id_eq hEq.symm)
  unfold KindTable.entry
  simp only [complete, List.getElem?_set_ne hId]

/-! ## Parent links -/

/-- A kind and the kind its place names as the parent. -/
def Link (table : KindTable) (child parent : Kind) : Prop :=
  table.parent child = .ok parent

/-- The parent of a kind; what has no parent stays where it is. -/
def up (table : KindTable) (kind : Kind) : Kind :=
  match table.entry kind with
  | .ok entry => entry.parent
  | .error _ => kind

/-- No link leads out of the table.

It is all that a walk needs to go on. That there are no cycles is not asked for, and not
true. -/
def Closed (table : KindTable) : Prop :=
  ∀ child parent, table.Link child parent → table.Has parent

/-- One step up from a kind leads to the parent in its entry. -/
theorem up_of_entry (h : table.entry kind = .ok entry) :
    table.up kind = entry.parent := by
  unfold up
  rw [h]

/-- A kind is linked to the parent in its entry. -/
theorem link_of_entry (h : table.entry kind = .ok entry) :
    table.Link kind entry.parent := by
  unfold Link KindTable.parent
  rw [h]
  rfl

/-- Links and steps up are the same, for the kinds that a table has. -/
theorem link_iff : table.Link child parent ↔
    table.Has child ∧ table.up child = parent := by
  by_cases hChild : table.Has child
  · obtain ⟨entry, hEntry⟩ := hChild.exists_entry
    have hParent : table.parent child = .ok entry.parent := link_of_entry hEntry
    simp only [Link, hParent, hChild, true_and, up_of_entry hEntry, Except.ok.injEq]
  · have hError : table.parent child = .error (.kindOutOfBounds child.id) := by
      unfold KindTable.parent
      rw [entry_of_not_has hChild]
      rfl
    simp only [Link, hError, hChild, false_and, reduceCtorEq]

private theorem Closed.has_up (h : table.Closed) (hKind : table.Has kind) :
    table.Has (table.up kind) :=
  h kind _ (link_iff.2 ⟨hKind, rfl⟩)

/-- In a closed table every walk up stays among the kinds of the table. -/
theorem Closed.has_iterate (h : table.Closed) (hKind : table.Has kind) (steps : Nat) :
    table.Has (table.up^[steps] kind) := by
  induction steps with
  | zero => exact hKind
  | succ steps ih =>
      rw [Function.iterate_succ_apply']
      exact h.has_up ih

/-- In a closed table a path of links is a number of steps upwards. -/
theorem Closed.path_iff (h : table.Closed) (hKind : table.Has kind) :
    Relation.ReflTransGen table.Link kind ancestor ↔
      ∃ steps, table.up^[steps] kind = ancestor := by
  constructor
  · intro hPath
    induction hPath with
    | refl => exact ⟨0, rfl⟩
    | tail _ hLink ih =>
        obtain ⟨steps, hSteps⟩ := ih
        refine ⟨steps + 1, ?_⟩
        rw [Function.iterate_succ_apply', hSteps]
        exact (link_iff.1 hLink).2
  · rintro ⟨steps, rfl⟩
    induction steps with
    | zero => exact Relation.ReflTransGen.refl
    | succ steps ih =>
        rw [Function.iterate_succ_apply']
        exact ih.tail (link_iff.2 ⟨h.has_iterate hKind steps, rfl⟩)

/-! ## Declarations keep the table closed -/

/-- The tables that declarations build, each with whatever slots it is made with, and
sealing.

The slots are arbitrary at each step, also ones filled by other tables. Nothing that is
said of ancestry depends on where the numbers in the slots come from. -/
inductive Reachable : KindTable → Prop
  | initial : Reachable .initial
  | registered {table : KindTable} {slots : Slots} {slot parent : String}
      {declaration : Declaration} {done : Registered Kind} (before : Reachable table)
      (registers : table.register slots slot parent declaration = .ok done) :
      Reachable done.table
  | sealed {table : KindTable} (before : Reachable table) : Reachable table.sealed

/-- The invariant of declarations: there is room for the placeholders, and no link leads
out. -/
structure Sane (table : KindTable) : Prop where
  placeholders_le : Kind.placeholders ≤ table.size
  closed : table.Closed

/-- The table that every process starts with is sane. -/
theorem Sane.initial : Sane .initial where
  placeholders_le := by decide
  closed := by
    intro child parent hLink
    obtain ⟨hChild, hUp⟩ := link_iff.1 hLink
    have hRoots : ∀ id < KindTable.initial.size, Kind.placeholders ≤ id →
        KindTable.initial.up ⟨id⟩ = ⟨id⟩ := by decide
    have hRoot : KindTable.initial.up child = child := hRoots child.id hChild.2 hChild.1
    rw [← hUp, hRoot]
    exact hChild

/-- It stays sane when a place is appended whose parent is there. -/
theorem Sane.append (h : table.Sane) {parent : Option Kind}
    (hParent : ∀ kind, parent = some kind → table.Has kind)
    (declaration : Option Declaration) :
    (table.append parent declaration).Sane where
  placeholders_le := by
    have := h.placeholders_le
    rw [size_append]
    omega
  closed := by
    intro child target hLink
    obtain ⟨hChild, hUp⟩ := link_iff.1 hLink
    rcases (has_append_iff h.placeholders_le parent declaration).1 hChild
      with hOld | rfl
    · obtain ⟨entry, hEntry⟩ := hOld.exists_entry
      have hAfter := (entry_append_of_has hOld parent declaration).trans hEntry
      rw [up_of_entry hAfter] at hUp
      rw [← hUp]
      exact (h.closed _ _ (link_of_entry hEntry)).append parent declaration
    · rw [up_of_entry (entry_append_next h.placeholders_le parent declaration)] at hUp
      rw [← hUp]
      cases parent with
      | none => exact (has_append_iff h.placeholders_le _ _).2 (.inr rfl)
      | some kind => exact (hParent kind rfl).append _ _

/-- And it stays sane when an entry is completed with a parent that is there. -/
theorem Sane.complete (h : table.Sane) (hKind : table.Has kind)
    (hParent : table.Has parent) (declaration : Declaration) :
    (table.complete kind parent declaration).Sane where
  placeholders_le := by
    rw [size_complete]
    exact h.placeholders_le
  closed := by
    intro child target hLink
    obtain ⟨hChild, hUp⟩ := link_iff.1 hLink
    rw [has_complete] at hChild ⊢
    by_cases hEq : child = kind
    · subst hEq
      rw [up_of_entry (entry_complete_self hKind parent declaration)] at hUp
      rw [← hUp]
      exact hParent
    · obtain ⟨entry, hEntry⟩ := hChild.exists_entry
      have hAfter := (entry_complete_of_ne hEq parent declaration).trans hEntry
      rw [up_of_entry hAfter] at hUp
      rw [← hUp]
      exact h.closed _ _ (link_of_entry hEntry)

/-- A resolved parent is in the table that comes with it, and nothing has left that
table. -/
theorem Sane.resolveParent (h : table.Sane) {slots : Slots} {slot parent : String}
    {resolved : Registered (Option Kind)}
    (hResolve : table.resolveParent slots slot parent = .ok resolved) :
    resolved.table.Sane ∧
      (∀ kind, resolved.value = some kind → resolved.table.Has kind) ∧
      ∀ kind, table.Has kind → resolved.table.Has kind := by
  unfold KindTable.resolveParent at hResolve
  by_cases hSelf : slot = parent
  · rw [if_pos hSelf] at hResolve
    cases hResolve
    exact ⟨h, by simp, fun _ hKind => hKind⟩
  · rw [if_neg hSelf] at hResolve
    cases hSlot : slots.get? parent with
    | none =>
        rw [hSlot] at hResolve
        cases hResolve
        refine ⟨h.append (by simp) none, ?_, fun _ hKind => hKind.append none none⟩
        intro kind hKind
        cases hKind
        exact (has_append_iff h.placeholders_le _ _).2 (.inr rfl)
    | some found =>
        rw [hSlot] at hResolve
        cases hEntry : table.entry found with
        | error e => simp [hEntry] at hResolve
        | ok entry =>
            simp only [hEntry] at hResolve
            cases hResolve
            refine ⟨h, ?_, fun _ hKind => hKind⟩
            intro kind hKind
            cases hKind
            exact has_of_entry hEntry

private theorem Sane.register (h : table.Sane) {slots : Slots} {slot parent : String}
    {declaration : Declaration} {done : Registered Kind}
    (hRegister : table.register slots slot parent declaration = .ok done) :
    done.table.Sane := by
  unfold KindTable.register at hRegister
  by_cases hSealed : table.isSealed = true
  · simp [hSealed] at hRegister
  · rw [if_neg hSealed] at hRegister
    cases hSlot : slots.get? slot with
    | none =>
        rw [hSlot] at hRegister
        cases hResolve : table.resolveParent slots slot parent with
        | error e => simp [hResolve] at hRegister
        | ok resolved =>
            simp only [hResolve] at hRegister
            cases hRegister
            obtain ⟨hSane, hValue, -⟩ := h.resolveParent hResolve
            exact hSane.append hValue (some declaration)
    | some kind =>
        rw [hSlot] at hRegister
        cases hEntry : table.entry kind with
        | error e => simp [hEntry] at hRegister
        | ok entry =>
            simp only [hEntry] at hRegister
            by_cases hProvisional : entry.isProvisional = true
            · rw [if_pos hProvisional] at hRegister
              cases hResolve : table.resolveParent slots slot parent with
              | error e => simp [hResolve] at hRegister
              | ok resolved =>
                  simp only [hResolve] at hRegister
                  cases hRegister
                  obtain ⟨hSane, hValue, hKeeps⟩ := h.resolveParent hResolve
                  have hKind : resolved.table.Has kind :=
                    hKeeps kind (has_of_entry hEntry)
                  refine hSane.complete hKind ?_ declaration
                  cases hParent : resolved.value with
                  | none => exact hKind
                  | some found => exact hValue found hParent
            · rw [if_neg hProvisional] at hRegister
              cases hRegister
              exact h

/-- So every table that registrations can lead to is sane, whatever their order and
whatever the parents that they name. -/
theorem Reachable.sane (h : Reachable table) : table.Sane := by
  induction h with
  | initial => exact .initial
  | registered _ hRegister ih => exact ih.register hRegister
  | sealed _ ih => exact ⟨ih.placeholders_le, ih.closed⟩

/-! ## The walk -/

/-- What lies between two visits to one place can be left out of a walk. -/
theorem iterate_skip {i j steps : Nat} (hSame : table.up^[i] kind = table.up^[j] kind)
    (hj : j ≤ steps) : table.up^[steps - j + i] kind = table.up^[steps] kind := calc
  table.up^[steps - j + i] kind
      = table.up^[steps - j] (table.up^[i] kind) := Function.iterate_add_apply ..
  _ = table.up^[steps - j] (table.up^[j] kind) := by rw [hSame]
  _ = table.up^[steps - j + j] kind := (Function.iterate_add_apply ..).symm
  _ = table.up^[steps] kind := by rw [Nat.sub_add_cancel hj]

/-- A kind that is met on the way up is met before the walk has used up the places of
the table: a longer way would pass two places that are one, and could leave out what
lies between them. -/
theorem Closed.exists_lt_size_of_iterate (h : table.Closed) (hKind : table.Has kind)
    (hMet : ∃ steps, table.up^[steps] kind = ancestor) :
    ∃ steps < table.size, table.up^[steps] kind = ancestor := by
  classical
  refine ⟨Nat.find hMet, ?_, Nat.find_spec hMet⟩
  by_contra hLong
  obtain ⟨i, hi, j, hj, hNe, hSame⟩ :=
    Finset.exists_ne_map_eq_of_card_lt_of_maps_to
      (s := Finset.range (Nat.find hMet + 1)) (t := Finset.range table.size)
      (f := fun steps => (table.up^[steps] kind).id)
      (by simp only [Finset.card_range]; omega)
      (fun steps _ => by simpa using (h.has_iterate hKind steps).2)
  have hPlace : table.up^[i] kind = table.up^[j] kind := Kind.eq_of_id_eq hSame
  simp only [Finset.mem_range] at hi hj
  have hNo : ∀ steps < Nat.find hMet,
      table.up^[steps] kind ≠ table.up^[Nat.find hMet] kind := by
    intro steps hLt
    rw [Nat.find_spec hMet]
    exact Nat.find_min hMet hLt
  rcases Nat.lt_or_gt_of_ne hNe with hij | hji
  · exact hNo _ (by omega) (iterate_skip hPlace (by omega))
  · exact hNo _ (by omega) (iterate_skip hPlace.symm (by omega))

/-- From a kind of a closed table the walk never fails, and finds what lies within its
steps. -/
theorem Closed.climb_eq (h : table.Closed) (ancestor : Kind) (steps : Nat) :
    ∀ {kind : Kind}, table.Has kind →
      ∃ answer, table.climb ancestor steps kind = .ok answer ∧
        (answer = true ↔ ∃ n < steps, table.up^[n] kind = ancestor) := by
  induction steps with
  | zero =>
      intro kind _
      exact ⟨false, rfl, by simp⟩
  | succ steps ih =>
      intro kind hKind
      unfold climb
      by_cases hFound : kind = ancestor
      · refine ⟨true, if_pos hFound, ?_⟩
        simpa using ⟨0, by omega, hFound⟩
      · obtain ⟨entry, hEntry⟩ := hKind.exists_entry
        have hUp : table.up kind = entry.parent := up_of_entry hEntry
        rw [if_neg hFound, hEntry]
        by_cases hRoot : entry.parent = kind
        · refine ⟨false, if_pos hRoot, ?_⟩
          have hStays : ∀ n, table.up^[n] kind = kind := fun n =>
            Function.iterate_fixed (hUp.trans hRoot) n
          simp [hStays, hFound]
        · obtain ⟨answer, hAnswer, hIff⟩ := ih (h.has_up hKind)
          rw [hUp] at hAnswer
          refine ⟨answer, by simpa [hRoot] using hAnswer, hIff.trans ?_⟩
          constructor
          · rintro ⟨n, hn, hMet⟩
            exact ⟨n + 1, by omega, hMet⟩
          · rintro ⟨n, hn, hMet⟩
            cases n with
            | zero => exact absurd hMet hFound
            | succ n => exact ⟨n, by omega, hMet⟩

/-! ## The answers -/

/-- What a closed table answers about two kinds of its own. -/
theorem Closed.isA_eq (h : table.Closed) (hCandidate : table.Has candidate)
    (hAncestor : table.Has ancestor) :
    ∃ answer, table.isA candidate ancestor = .ok answer ∧
      (answer = true ↔ Relation.ReflTransGen table.Link candidate ancestor) := by
  obtain ⟨entry, hEntry⟩ := hAncestor.exists_entry
  obtain ⟨answer, hAnswer, hIff⟩ := h.climb_eq ancestor table.size hCandidate
  refine ⟨answer, ?_, ?_⟩
  · unfold isA
    rw [hEntry]
    exact hAnswer
  · rw [hIff, h.path_iff hCandidate]
    constructor
    · rintro ⟨n, _, hMet⟩
      exact ⟨n, hMet⟩
    · exact h.exists_lt_size_of_iterate hCandidate

private theorem isA_of_not_has_ancestor (hAncestor : ¬ table.Has ancestor)
    (candidate : Kind) :
    table.isA candidate ancestor = .error (.kindOutOfBounds ancestor.id) := by
  unfold isA
  rw [entry_of_not_has hAncestor]

private theorem isA_of_not_has_candidate (hAncestor : table.Has ancestor)
    (hCandidate : ¬ table.Has candidate) :
    table.isA candidate ancestor = .error (.kindOutOfBounds candidate.id) := by
  obtain ⟨entry, hEntry⟩ := hAncestor.exists_entry
  have hNe : candidate ≠ ancestor := by
    rintro rfl
    exact hCandidate hAncestor
  obtain ⟨steps, hSteps⟩ : ∃ steps, table.size = steps + 1 :=
    ⟨table.size - 1, by have := hAncestor.2; omega⟩
  unfold isA
  rw [hEntry, hSteps]
  unfold climb
  rw [if_neg hNe, entry_of_not_has hCandidate]

/-- The answers of a closed table, by what it has. -/
theorem Closed.isA_cases (h : table.Closed) (candidate ancestor : Kind) :
    (table.Has candidate ∧ table.Has ancestor ∧ ∃ answer,
      table.isA candidate ancestor = .ok answer ∧
        (answer = true ↔ Relation.ReflTransGen table.Link candidate ancestor)) ∨
    (table.Has ancestor ∧ ¬ table.Has candidate ∧
      table.isA candidate ancestor = .error (.kindOutOfBounds candidate.id)) ∨
    (¬ table.Has ancestor ∧
      table.isA candidate ancestor = .error (.kindOutOfBounds ancestor.id)) := by
  by_cases hAncestor : table.Has ancestor
  · by_cases hCandidate : table.Has candidate
    · exact .inl ⟨hCandidate, hAncestor, h.isA_eq hCandidate hAncestor⟩
    · exact .inr
        (.inl ⟨hAncestor, hCandidate, isA_of_not_has_candidate hAncestor hCandidate⟩)
  · exact .inr (.inr ⟨hAncestor, isA_of_not_has_ancestor hAncestor candidate⟩)

/-- A closed table says yes just if both kinds are there and links lead from the one to
the other. -/
theorem Closed.isA_true_iff (h : table.Closed) :
    table.isA candidate ancestor = .ok true ↔
      table.Has candidate ∧ table.Has ancestor ∧
        Relation.ReflTransGen table.Link candidate ancestor := by
  rcases h.isA_cases candidate ancestor with
    ⟨hCandidate, hAncestor, answer, hAnswer, hIff⟩ | ⟨_, hNot, hError⟩ | ⟨hNot, hError⟩
  · simp [hAnswer, hIff, hCandidate, hAncestor]
  · simp [hError, hNot]
  · simp [hError, hNot]

/-- It says no just if both are there and no links lead up. -/
theorem Closed.isA_false_iff (h : table.Closed) :
    table.isA candidate ancestor = .ok false ↔
      table.Has candidate ∧ table.Has ancestor ∧
        ¬ Relation.ReflTransGen table.Link candidate ancestor := by
  rcases h.isA_cases candidate ancestor with
    ⟨hCandidate, hAncestor, answer, hAnswer, hIff⟩ | ⟨_, hNot, hError⟩ | ⟨hNot, hError⟩
  · simp [hAnswer, ← hIff, hCandidate, hAncestor]
  · simp [hError, hNot]
  · simp [hError, hNot]

/-- It fails just if one of the two is missing. The ancestor is looked for first, so if
both are missing it is the ancestor that the error names. -/
theorem Closed.isA_error_iff (h : table.Closed) {e : Error} :
    table.isA candidate ancestor = .error e ↔
      (¬ table.Has ancestor ∧ e = .kindOutOfBounds ancestor.id) ∨
      (table.Has ancestor ∧ ¬ table.Has candidate ∧
        e = .kindOutOfBounds candidate.id) := by
  rcases h.isA_cases candidate ancestor with
    ⟨hCandidate, hAncestor, answer, hAnswer, _⟩ | ⟨hAncestor, hNot, hError⟩
      | ⟨hNot, hError⟩
  · simp [hAnswer, hCandidate, hAncestor]
  · simp [hError, hNot, hAncestor, eq_comm]
  · simp [hError, hNot, eq_comm]

/-- Ancestry is reachability. In every table that declarations can build, two kinds of
the table are related exactly when a path of parent links leads from the one to the
other; what is not in the table is named by the error, the ancestor before the
candidate; and no walk that starts in the table fails, however far it may go.

The walk is bounded by the number of places, which suffices since a path without a
repetition cannot be longer. That the answer on a cycle is no, when the ancestor is not
on it, follows from the same bound. -/
theorem Reachable.isA_iff_path (h : Reachable table) :
    (∀ candidate ancestor, table.isA candidate ancestor = .ok true ↔
      table.Has candidate ∧ table.Has ancestor ∧
        Relation.ReflTransGen table.Link candidate ancestor) ∧
    (∀ candidate ancestor, table.isA candidate ancestor = .ok false ↔
      table.Has candidate ∧ table.Has ancestor ∧
        ¬ Relation.ReflTransGen table.Link candidate ancestor) ∧
    (∀ candidate ancestor e, table.isA candidate ancestor = .error e ↔
      (¬ table.Has ancestor ∧ e = .kindOutOfBounds ancestor.id) ∨
      (table.Has ancestor ∧ ¬ table.Has candidate ∧
        e = .kindOutOfBounds candidate.id)) ∧
    (∀ kind ancestor steps, table.Has kind → ∃ answer, table.climb ancestor steps kind =
      .ok answer) ∧
    (∀ kind, table.Has kind → table.isA kind kind = .ok true) ∧
    (∀ low middle high, table.isA low middle = .ok true →
      table.isA middle high = .ok true →
      table.isA low high = .ok true) := by
  have hClosed : table.Closed := h.sane.closed
  refine ⟨?_, ?_, ?_, ?_, ?_, ?_⟩
  · intro candidate ancestor
    exact hClosed.isA_true_iff
  · intro candidate ancestor
    exact hClosed.isA_false_iff
  · intro candidate ancestor e
    exact hClosed.isA_error_iff
  · intro kind ancestor steps hKind
    obtain ⟨answer, hAnswer, _⟩ := hClosed.climb_eq ancestor steps hKind
    exact ⟨answer, hAnswer⟩
  · intro kind hKind
    exact hClosed.isA_true_iff.2 ⟨hKind, hKind, .refl⟩
  · intro low middle high hLow hHigh
    obtain ⟨hLowHas, _, hLowPath⟩ := hClosed.isA_true_iff.1 hLow
    obtain ⟨_, hHighHas, hHighPath⟩ := hClosed.isA_true_iff.1 hHigh
    exact hClosed.isA_true_iff.2 ⟨hLowHas, hHighHas, hLowPath.trans hHighPath⟩

end KindTable

/-- The registry of every program is one that declarations build. -/
theorem Registry.reachable_ofEntries (entries : List Entry) :
    KindTable.Reachable (Registry.ofEntries entries).table := by
  unfold Registry.ofEntries
  generalize hStart : ({} : Registry) = registry
  have hReachable : KindTable.Reachable registry.table := hStart ▸ .initial
  clear hStart
  induction entries generalizing registry with
  | nil => exact hReachable
  | cons entry entries ih =>
      rw [List.foldl_cons]
      refine ih _ ?_
      unfold declare
      cases hRegister :
          registry.table.register registry.slots entry.slot entry.parent
            entry.declaration with
      | error e => exact hReachable
      | ok done => exact .registered hReachable hRegister

/-- Two kinds that are declared below each other reach each other, and nothing else. -/
theorem KindTable.isA_iff_path_of_cycle :
    let table :=
      (Registry.ofEntries [⟨"low", "high", "Low", ""⟩,
      ⟨"high", "low", "High", ""⟩]).table
    table.Reachable ∧ Relation.ReflTransGen table.Link ⟨5⟩ ⟨6⟩ ∧
      Relation.ReflTransGen table.Link ⟨6⟩ ⟨5⟩ ∧
      ¬ Relation.ReflTransGen table.Link ⟨5⟩ .illegalEscape := by
  intro table
  have hReachable : table.Reachable := Registry.reachable_ofEntries _
  obtain ⟨hTrue, hFalse, _⟩ := KindTable.Reachable.isA_iff_path hReachable
  have hUp : table.isA ⟨5⟩ ⟨6⟩ = .ok true := by decide
  have hDown : table.isA ⟨6⟩ ⟨5⟩ = .ok true := by decide
  have hApart : table.isA ⟨5⟩ .illegalEscape = .ok false := by decide
  exact ⟨hReachable, ((hTrue _ _).1 hUp).2.2, ((hTrue _ _).1 hDown).2.2,
    ((hFalse _ _).1 hApart).2.2⟩

end Unwinding
