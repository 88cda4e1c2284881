import Mathlib.Data.List.Nodup
import Mathlib.Logic.Function.Basic
import Unwinding.Proofs.Ancestry

/-!
# The order of declarations

The numbers of kinds depend on the order in which a program declares them, and so does
the way each place of the table comes about: it may be new, or it may have been provided
for a child and be completed afterwards, with a parent that is itself provided on that
occasion. Seen through the slots, none of this shows.

A registry is therefore given a *meaning*: for each slot, the slot of its parent and
what was declared of it, with no kind anywhere. The table carries the meaning out
(`Registry.Means`), and a declaration is a pointwise change of it (`Meaning.declare`).
Two declarations of different slots commute as changes of the meaning, though they do
not as changes of the table, so a list of them means the same in every order; and all
that a program can ask of a registry through its slots is answered by the meaning alone.

## Main results

* `Meaning.declare_comm` : declarations of different slots commute.
* `Registry.Means.declare` : a declaration succeeds on an open registry and does to its
  meaning what it says.
* `Registry.Means.isA_eq_true_iff` : ancestry between slots is read off the meaning.
* `Registry.declareAll_perm` : a list of declarations and each of its permutations
  agree.
-/

namespace Unwinding

/-! ## Meanings -/

/-- What a slot stands for, in terms of slots: its parent's slot, and what was declared
of it. -/
structure Place where
  parent : String
  declaration : Option Declaration
  deriving DecidableEq, Repr

/-- What every slot stands for, if it is registered.

Meanings know nothing of numbers, so two registries that number their kinds differently
may have the same one. -/
abbrev Meaning : Type :=
  String → Option Place

namespace Meaning

/-- No slot is registered. -/
def empty : Meaning :=
  fun _ => none

/-- The slot of the parent; an empty slot is its own. -/
def parent (meaning : Meaning) (slot : String) : String :=
  ((meaning slot).map Place.parent).getD slot

/-- Whether a slot is registered with a declaration of its own. -/
def Declares (meaning : Meaning) (slot : String) : Prop :=
  ∃ place, meaning slot = some place ∧ place.declaration.isSome

/-- Gives a slot a place. -/
def put (meaning : Meaning) (slot : String) (place : Place) : Meaning :=
  Function.update meaning slot (some place)

/-- Sees to it that a slot is registered, if need be as a root without a declaration. -/
def provide (meaning : Meaning) (slot : String) : Meaning :=
  meaning.put slot ((meaning slot).getD ⟨slot, none⟩)

open Classical in
/-- What a declaration does. A slot that is declared already stays as it is. -/
noncomputable def declare (meaning : Meaning) (entry : Registry.Entry) : Meaning :=
  if meaning.Declares entry.slot then
    meaning
  else
    (meaning.provide entry.parent).put entry.slot ⟨entry.parent, some entry.declaration⟩

variable {meaning : Meaning} {slot other : String} {place : Place}

/-- A slot means what was put there last. -/
@[simp] theorem put_self (meaning : Meaning) (slot : String) (place : Place) :
    meaning.put slot place slot = some place := by
  rw [put, Function.update_self]

/-- The other slots mean what they meant. -/
theorem put_of_ne (h : other ≠ slot) (meaning : Meaning) (place : Place) :
    meaning.put slot place other = meaning other := by
  rw [put, Function.update_of_ne h]

private theorem put_comm (h : slot ≠ other) (meaning : Meaning) (place second : Place) :
    (meaning.put slot place).put other second =
    (meaning.put other second).put slot place := by
  unfold put
  rw [Function.update_comm h]

private theorem put_put (meaning : Meaning) (slot : String) (place second : Place) :
    (meaning.put slot place).put slot second = meaning.put slot second := by
  unfold put
  rw [Function.update_idem]

/-- To name a slot as a parent only ever changes that slot. -/
theorem provide_of_ne (h : other ≠ slot) (meaning : Meaning) :
    meaning.provide slot other = meaning other :=
  put_of_ne h meaning _

/-- Providing a slot that is registered changes nothing. -/
theorem provide_of_some (h : meaning slot = some place) :
    meaning.provide slot = meaning := by
  unfold provide put
  rw [h, Option.getD_some, ← h]
  exact Function.update_eq_self slot meaning

private theorem provide_of_none (h : meaning slot = none) :
    meaning.provide slot = meaning.put slot ⟨slot, none⟩ := by
  unfold provide
  rw [h, Option.getD_none]

/-- Providing a slot declares nothing. -/
theorem declares_provide (meaning : Meaning) (slot other : String) :
    (meaning.provide slot).Declares other ↔ meaning.Declares other := by
  by_cases hEq : other = slot
  · subst hEq
    cases hPlace : meaning other with
    | none => simp [Declares, provide_of_none hPlace, hPlace]
    | some place => rw [provide_of_some hPlace]
  · simp only [Declares, provide_of_ne hEq]

private theorem declares_put_of_ne (h : other ≠ slot) (meaning : Meaning)
    (place : Place) :
    (meaning.put slot place).Declares other ↔ meaning.Declares other := by
  simp only [Declares, put_of_ne h]

private theorem declares_declare_of_ne {entry : Registry.Entry} (h : other ≠ entry.slot)
    (meaning : Meaning) :
    (meaning.declare entry).Declares other ↔ meaning.Declares other := by
  unfold declare
  split
  · exact Iff.rfl
  · rw [declares_put_of_ne h, declares_provide]

/-- A slot that is declared already keeps its meaning. -/
theorem declare_of_declares {entry : Registry.Entry} (h : meaning.Declares entry.slot) :
    meaning.declare entry = meaning :=
  if_pos h

/-- Any other slot gets the meaning that the entry declares, and its parent is provided
for. -/
theorem declare_of_not_declares {entry : Registry.Entry}
    (h : ¬ meaning.Declares entry.slot) :
    meaning.declare entry =
      (meaning.provide entry.parent).put entry.slot
        ⟨entry.parent, some entry.declaration⟩ :=
  if_neg h

/-- Two slots are provided in either order. -/
theorem provide_comm (meaning : Meaning) (slot other : String) :
    (meaning.provide slot).provide other = (meaning.provide other).provide slot := by
  by_cases hEq : slot = other
  · rw [hEq]
  · unfold provide
    rw [put_of_ne (Ne.symm hEq), put_of_ne hEq, put_comm hEq]

/-- A place that is given already is not touched when slots are provided. -/
theorem provide_put (meaning : Meaning) (slot other : String) (place : Place) :
    (meaning.put slot place).provide other =
    (meaning.provide other).put slot place := by
  by_cases hEq : other = slot
  · subst hEq
    rw [provide_of_some (put_self meaning other place)]
    exact (put_put meaning other _ place).symm
  · unfold provide
    rw [put_of_ne hEq, put_comm (Ne.symm hEq)]

/-- Declarations of different slots commute. -/
theorem declare_comm {first second : Registry.Entry} (hNe : first.slot ≠ second.slot)
    (meaning : Meaning) :
    (meaning.declare first).declare second =
    (meaning.declare second).declare first := by
  have hFirst : (meaning.declare second).Declares first.slot ↔
      meaning.Declares first.slot :=
    declares_declare_of_ne hNe meaning
  have hSecond : (meaning.declare first).Declares second.slot ↔
      meaning.Declares second.slot :=
    declares_declare_of_ne hNe.symm meaning
  by_cases hOne : meaning.Declares first.slot
  · rw [declare_of_declares hOne, declare_of_declares (hFirst.2 hOne)]
  · by_cases hTwo : meaning.Declares second.slot
    · rw [declare_of_declares hTwo, declare_of_declares (hSecond.2 hTwo)]
    · rw [declare_of_not_declares (mt hSecond.1 hTwo),
        declare_of_not_declares (mt hFirst.1 hOne), declare_of_not_declares hOne,
        declare_of_not_declares hTwo]
      rw [provide_put, provide_put, put_comm hNe, provide_comm]

/-- A list of declarations of different slots means the same in every order. -/
theorem foldl_declare_perm {entries others : List Registry.Entry}
    (hPerm : entries.Perm others) (hDistinct : (entries.map Registry.Entry.slot).Nodup)
    (meaning : Meaning) :
    entries.foldl declare meaning = others.foldl declare meaning := by
  refine hPerm.foldl_eq' ?_ meaning
  intro first hFirst second hSecond meaning
  by_cases hSlot : first.slot = second.slot
  · rw [List.inj_on_of_nodup_map hDistinct hFirst hSecond hSlot]
  · exact declare_comm hSlot meaning

end Meaning

/-! ## What a registry means -/

namespace Registry

/-- Declares a list of kinds in order, up to the first that is refused. -/
def declareAll (registry : Registry) (entries : List Entry) : Except Error Registry :=
  entries.foldlM
    (fun registry entry => (registry.declare entry).map fun done => done.2.1) registry

/-- The registry carries out a meaning: its slots stand for different kinds, and the
entry of each kind says of the slot what the meaning says.

It determines everything that can be asked through slots, and leaves open how the kinds
are numbered. -/
structure Means (registry : Registry) (meaning : Meaning) : Prop where
  sane : registry.table.Sane
  unsealed : registry.table.isSealed = false
  vacant : ∀ slot, meaning slot = none → registry.slots.get? slot = none
  carries : ∀ slot place, meaning slot = some place → ∃ kind parent,
    registry.slots.get? slot = some kind ∧ registry.slots.get? place.parent =
      some parent ∧
      registry.table.entry kind = .ok ⟨parent, place.declaration⟩
  separate : ∀ slot other kind, registry.slots.get? slot = some kind →
    registry.slots.get? other = some kind → slot = other

variable {registry : Registry} {meaning : Meaning} {slot parent : String}
    {kind up : Kind}

private theorem means_empty : Means {} .empty where
  sane := .initial
  unsealed := rfl
  vacant := fun _ _ => rfl
  carries := by
    intro slot place hPlace
    cases hPlace
  separate := by
    intro slot other kind hSlot
    cases hSlot

/-- A kind that a slot stands for has an entry that says what the slot means, and the
parent of the entry is what the parent slot stands for. -/
theorem Means.place_of_get? (h : registry.Means meaning)
    (hSlot : registry.slots.get? slot = some kind) :
    ∃ place up, meaning slot = some place ∧ registry.slots.get? place.parent = some up ∧
      registry.table.entry kind = .ok ⟨up, place.declaration⟩ := by
  cases hPlace : meaning slot with
  | none =>
      rw [h.vacant slot hPlace] at hSlot
      cases hSlot
  | some place =>
      obtain ⟨found, up, hFound, hUp, hEntry⟩ := h.carries slot place hPlace
      obtain rfl : found = kind := Option.some.inj (hFound.symm.trans hSlot)
      exact ⟨place, up, rfl, hUp, hEntry⟩

private theorem Means.has (h : registry.Means meaning)
    (hSlot : registry.slots.get? slot = some kind) :
    registry.table.Has kind := by
  obtain ⟨_, _, _, _, hEntry⟩ := h.place_of_get? hSlot
  exact KindTable.has_of_entry hEntry

private theorem Means.ne_nextKind (h : registry.Means meaning)
    (hSlot : registry.slots.get? slot = some kind) :
    kind ≠ registry.table.nextKind := by
  rintro rfl
  exact Nat.lt_irrefl _ (h.has hSlot).2

/-- A slot is filled just if it means something. -/
theorem Means.isSome_iff (h : registry.Means meaning) (slot : String) :
    (registry.slots.get? slot).isSome = (meaning slot).isSome := by
  cases hPlace : meaning slot with
  | none => rw [h.vacant slot hPlace]; rfl
  | some place =>
      obtain ⟨kind, _, hKind, _⟩ := h.carries slot place hPlace
      rw [hKind]; rfl

private theorem Means.eq_none_of_get? (h : registry.Means meaning)
    (hSlot : registry.slots.get? slot = none) : meaning slot = none := by
  have hSome := h.isSome_iff slot
  rw [hSlot] at hSome
  cases hPlace : meaning slot with
  | none => rfl
  | some place => simp [hPlace] at hSome

/-! ## What the table does for a declaration -/

/-- The parent a new entry is given: none for a root, or the kind of a slot that is
registered. -/
inductive Names (registry : Registry) (slot parent : String) : Option Kind → Prop
  | root (h : slot = parent) : Names registry slot parent none
  | registered {kind : Kind} (h : registry.slots.get? parent = some kind) :
      Names registry slot parent (some kind)

/-- A new place at the end of the table, for a slot that was empty. -/
theorem Means.place (h : registry.Means meaning)
    (hSlot : registry.slots.get? slot = none) {above : Option Kind}
    (hAbove : registry.Names slot parent above) (declaration : Option Declaration) :
    Means ⟨registry.table.append above declaration,
        registry.slots.fill slot registry.table.nextKind⟩
      (meaning.put slot ⟨parent, declaration⟩) where
  sane := by
    refine h.sane.append ?_ declaration
    rintro kind rfl
    cases hAbove with
    | registered hParent => exact h.has hParent
  unsealed := h.unsealed
  vacant := by
    intro other hOther
    by_cases hEq : other = slot
    · subst hEq
      simp at hOther
    · rw [Meaning.put_of_ne hEq] at hOther
      rw [Slots.get?_fill_of_ne _ _ hEq]
      exact h.vacant other hOther
  carries := by
    intro other place hPlace
    by_cases hEq : other = slot
    · subst hEq
      obtain rfl : ⟨parent, declaration⟩ = place :=
        Option.some.inj ((Meaning.put_self ..).symm.trans hPlace)
      refine ⟨registry.table.nextKind, above.getD registry.table.nextKind, by simp, ?_,
        KindTable.entry_append_next h.sane.placeholders_le above declaration⟩
      cases hAbove with
      | root hSelf =>
          subst hSelf
          simp
      | registered hParent =>
          have hNe : parent ≠ other := by
            rintro rfl
            rw [hSlot] at hParent
            cases hParent
          simpa only [Option.getD_some, Slots.get?_fill_of_ne _ _ hNe] using hParent
    · rw [Meaning.put_of_ne hEq] at hPlace
      obtain ⟨kind, up, hKind, hUp, hEntry⟩ := h.carries other place hPlace
      have hNe : place.parent ≠ slot := by
        intro hParent
        rw [hParent, hSlot] at hUp
        cases hUp
      refine ⟨kind, up, ?_, ?_, ?_⟩
      · rw [Slots.get?_fill_of_ne _ _ hEq]
        exact hKind
      · rw [Slots.get?_fill_of_ne _ _ hNe]
        exact hUp
      · exact (KindTable.entry_append_of_has (h.has hKind) above declaration).trans
          hEntry
  separate := by
    intro one other kind hOne hOther
    by_cases hFirst : one = slot
    · by_cases hSecond : other = slot
      · rw [hFirst, hSecond]
      · subst hFirst
        rw [Slots.get?_fill_self] at hOne
        rw [Slots.get?_fill_of_ne _ _ hSecond] at hOther
        exact absurd (Option.some.inj hOne).symm (h.ne_nextKind hOther)
    · rw [Slots.get?_fill_of_ne _ _ hFirst] at hOne
      by_cases hSecond : other = slot
      · subst hSecond
        rw [Slots.get?_fill_self] at hOther
        exact absurd (Option.some.inj hOther).symm (h.ne_nextKind hOne)
      · rw [Slots.get?_fill_of_ne _ _ hSecond] at hOther
        exact h.separate one other kind hOne hOther

/-- A place that was provided receives its declaration and its parent. -/
theorem Means.complete (h : registry.Means meaning)
    (hSlot : registry.slots.get? slot = some kind)
    (hParent : registry.slots.get? parent = some up) (declaration : Declaration) :
    Means ⟨registry.table.complete kind up declaration, registry.slots⟩
      (meaning.put slot ⟨parent, some declaration⟩) where
  sane := h.sane.complete (h.has hSlot) (h.has hParent) declaration
  unsealed := h.unsealed
  vacant := by
    intro other hOther
    by_cases hEq : other = slot
    · subst hEq
      simp at hOther
    · rw [Meaning.put_of_ne hEq] at hOther
      exact h.vacant other hOther
  carries := by
    intro other place hPlace
    by_cases hEq : other = slot
    · subst hEq
      obtain rfl : ⟨parent, some declaration⟩ = place :=
        Option.some.inj ((Meaning.put_self ..).symm.trans hPlace)
      exact ⟨kind, up, hSlot, hParent,
        KindTable.entry_complete_self (h.has hSlot) up declaration⟩
    · rw [Meaning.put_of_ne hEq] at hPlace
      obtain ⟨found, above, hFound, hAbove, hEntry⟩ := h.carries other place hPlace
      have hNe : found ≠ kind := by
        rintro rfl
        exact hEq (h.separate other slot found hFound hSlot)
      exact ⟨found, above, hFound, hAbove,
        (KindTable.entry_complete_of_ne hNe up declaration).trans hEntry⟩
  separate := h.separate

/-- The parent of a declaration is resolved to the kind of its slot, which is registered
from then on. -/
theorem Means.resolveParent (h : registry.Means meaning) (hNe : slot ≠ parent) :
    ∃ resolved up, registry.table.resolveParent registry.slots slot parent =
      .ok resolved ∧
      resolved.value = some up ∧ resolved.slots.get? parent = some up ∧
      Means ⟨resolved.table, resolved.slots⟩ (meaning.provide parent) ∧
      ∀ other, other ≠ parent → resolved.slots.get? other =
        registry.slots.get? other := by
  unfold KindTable.resolveParent
  rw [if_neg hNe]
  cases hParent : registry.slots.get? parent with
  | none =>
      refine ⟨_, _, rfl, rfl, Slots.get?_fill_self .., ?_, ?_⟩
      · rw [Meaning.provide_of_none (h.eq_none_of_get? hParent)]
        exact h.place hParent (.root rfl) none
      · intro other hOther
        exact Slots.get?_fill_of_ne _ _ hOther
  | some kind =>
      obtain ⟨place, up, hPlace, -, hEntry⟩ := h.place_of_get? hParent
      simp only [hEntry]
      refine ⟨_, kind, rfl, rfl, hParent, ?_, fun _ _ => rfl⟩
      rw [Meaning.provide_of_some hPlace]
      exact h

/-- A declaration succeeds on an open registry, and does to its meaning what it says. -/
theorem Means.declare (h : registry.Means meaning) (entry : Entry) :
    ∃ kind next notices, registry.declare entry = .ok (kind, next, notices) ∧
      next.Means (meaning.declare entry) := by
  unfold Registry.declare KindTable.register
  rw [if_neg (by simp [h.unsealed])]
  cases hSlot : registry.slots.get? entry.slot with
  | none =>
      have hNone : meaning entry.slot = none := h.eq_none_of_get? hSlot
      have hDeclares : ¬ meaning.Declares entry.slot := by
        rintro ⟨place, hPlace, -⟩
        rw [hNone] at hPlace
        cases hPlace
      rw [Meaning.declare_of_not_declares hDeclares]
      by_cases hSelf : entry.slot = entry.parent
      · simp only [KindTable.resolveParent, if_pos hSelf]
        refine ⟨_, _, _, rfl, ?_⟩
        rw [← hSelf, Meaning.provide, Meaning.put_put]
        exact h.place hSlot (.root rfl) _
      · obtain ⟨resolved, up, hResolve, hValue, hUp, hMeans, hFrame⟩ :=
          h.resolveParent hSelf
        simp only [hResolve, hValue]
        refine ⟨_, _, _, rfl, ?_⟩
        exact hMeans.place ((hFrame _ hSelf).trans hSlot) (.registered hUp) _
  | some kind =>
      obtain ⟨place, up, hPlace, -, hEntry⟩ := h.place_of_get? hSlot
      simp only [hEntry]
      cases hDeclaration : place.declaration with
      | some declaration =>
          have hDeclares : meaning.Declares entry.slot :=
            ⟨place, hPlace, by simp [hDeclaration]⟩
          rw [Meaning.declare_of_declares hDeclares]
          exact ⟨_, _, _, rfl, h⟩
      | none =>
          have hDeclares : ¬ meaning.Declares entry.slot := by
            rintro ⟨found, hFound, hSome⟩
            obtain rfl : place = found := Option.some.inj (hPlace.symm.trans hFound)
            simp [hDeclaration] at hSome
          rw [Meaning.declare_of_not_declares hDeclares]
          simp only [KindEntry.isProvisional, Option.isNone_none, if_true]
          by_cases hSelf : entry.slot = entry.parent
          · simp only [KindTable.resolveParent, if_pos hSelf]
            refine ⟨_, _, _, rfl, ?_⟩
            rw [← hSelf, Meaning.provide, Meaning.put_put]
            exact h.complete hSlot hSlot entry.declaration
          · obtain ⟨resolved, above, hResolve, hValue, hAbove, hMeans, hFrame⟩ :=
              h.resolveParent hSelf
            simp only [hResolve, hValue]
            refine ⟨_, _, _, rfl, ?_⟩
            exact hMeans.complete ((hFrame _ hSelf).trans hSlot)
              hAbove entry.declaration

/-- A list of declarations succeeds on an open registry, and means what its declarations
mean one after another. -/
theorem Means.declareAll (h : registry.Means meaning) (entries : List Entry) :
    ∃ next, registry.declareAll entries = .ok next ∧
      next.Means (entries.foldl Meaning.declare meaning) := by
  induction entries generalizing registry meaning with
  | nil => exact ⟨registry, rfl, h⟩
  | cons entry entries ih =>
      obtain ⟨kind, next, notices, hDeclare, hMeans⟩ := h.declare entry
      obtain ⟨last, hLast, hDone⟩ := ih hMeans
      refine ⟨last, ?_, hDone⟩
      unfold Registry.declareAll
      rw [List.foldlM_cons, hDeclare]
      exact hLast

/-- The registry of a program means what its declarations say, repeated ones
included. -/
theorem means_ofEntries (entries : List Entry) :
    (ofEntries entries).Means (entries.foldl Meaning.declare .empty) := by
  have hMeans : ({} : Registry).Means .empty := means_empty
  unfold ofEntries
  generalize ({} : Registry) = registry at hMeans ⊢
  generalize Meaning.empty = meaning at hMeans ⊢
  induction entries generalizing registry meaning with
  | nil => exact hMeans
  | cons entry entries ih =>
      obtain ⟨kind, next, notices, hDeclare, hNext⟩ := hMeans.declare entry
      rw [List.foldl_cons, List.foldl_cons, hDeclare]
      exact ih next _ hNext

/-! ## What a program sees of a registry -/

/-- Upwards in the table is upwards in the meaning. -/
theorem Means.up_eq (h : registry.Means meaning)
    (hSlot : registry.slots.get? slot = some kind) :
    registry.slots.get? (meaning.parent slot) = some (registry.table.up kind) := by
  obtain ⟨place, up, hPlace, hUp, hEntry⟩ := h.place_of_get? hSlot
  rw [KindTable.up_of_entry hEntry, Meaning.parent, hPlace]
  exact hUp

private theorem Means.iterate_eq (h : registry.Means meaning)
    (hSlot : registry.slots.get? slot = some kind) (steps : Nat) :
    registry.slots.get? (meaning.parent^[steps] slot) =
      some (registry.table.up^[steps] kind) := by
  induction steps with
  | zero => exact hSlot
  | succ steps ih =>
      rw [Function.iterate_succ_apply', Function.iterate_succ_apply']
      exact h.up_eq ih

/-- Ancestry between two registered slots is read off the meaning, and is never
refused. -/
theorem Means.isA_eq (h : registry.Means meaning) {candidate ancestor : String}
    (hCandidate : (meaning candidate).isSome) (hAncestor : (meaning ancestor).isSome) :
    ∃ answer, registry.isA (.slot candidate) (.slot ancestor) = .ok answer ∧
      (answer = true ↔ ∃ steps, meaning.parent^[steps] candidate = ancestor) := by
  rw [← h.isSome_iff, Option.isSome_iff_exists] at hCandidate hAncestor
  obtain ⟨low, hLow⟩ := hCandidate
  obtain ⟨high, hHigh⟩ := hAncestor
  obtain ⟨answer, hAnswer, hIff⟩ := h.sane.closed.isA_eq (h.has hLow) (h.has hHigh)
  refine ⟨answer, ?_, ?_⟩
  · unfold Registry.isA resolve KindRef.resolve?
    simp only [hLow, hHigh]
    exact hAnswer
  · rw [hIff, h.sane.closed.path_iff (h.has hLow)]
    constructor
    · rintro ⟨steps, hMet⟩
      refine ⟨steps, h.separate _ _ high ?_ hHigh⟩
      rw [h.iterate_eq hLow, hMet]
    · rintro ⟨steps, hMet⟩
      refine ⟨steps, ?_⟩
      have hSame := h.iterate_eq hLow steps
      rw [hMet, hHigh] at hSame
      exact (Option.some.inj hSame).symm

/-- A slot that is not registered is named as such, whatever the other one stands
for. -/
theorem Means.isA_of_none (h : registry.Means meaning) {candidate ancestor : String}
    (hNone : meaning candidate = none ∨ meaning ancestor = none) :
    registry.isA (.slot candidate) (.slot ancestor) = .error .kindNotRegistered := by
  cases hLow : registry.slots.get? candidate with
  | none =>
      simp only [Registry.isA, resolve, KindRef.resolve?, hLow]
      rfl
  | some low =>
      have hAncestor : registry.slots.get? ancestor = none := by
        rcases hNone with hCandidate | hAncestor
        · rw [h.vacant candidate hCandidate] at hLow
          cases hLow
        · exact h.vacant ancestor hAncestor
      simp only [Registry.isA, resolve, KindRef.resolve?, hLow, hAncestor]
      rfl

/-- Two registries that cannot be told apart through their slots. -/
structure Agree (first second : Registry) : Prop where
  registered : ∀ slot, (first.slots.get? slot).isSome = (second.slots.get? slot).isSome
  separate : ∀ registry ∈ [first, second], ∀ slot other kind,
    registry.slots.get? slot = some kind → registry.slots.get? other = some kind →
      slot = other
  entries : ∀ slot one other, first.slots.get? slot = some one →
    second.slots.get? slot = some other →
    ∃ here there parent, first.table.entry one = .ok here ∧ second.table.entry other =
      .ok there ∧
      here.name = there.name ∧ here.message = there.message ∧
      here.isProvisional = there.isProvisional ∧
      first.slots.get? parent = some here.parent ∧ second.slots.get? parent =
        some there.parent
  ancestry : ∀ candidate ancestor,
    first.isA (.slot candidate) (.slot ancestor) =
      second.isA (.slot candidate) (.slot ancestor)

/-- Registries of one meaning agree. -/
theorem Means.agree {first second : Registry} (hFirst : first.Means meaning)
    (hSecond : second.Means meaning) : first.Agree second where
  registered := by
    intro slot
    rw [hFirst.isSome_iff, hSecond.isSome_iff]
  separate := by
    intro registry hRegistry
    simp only [List.mem_cons, List.not_mem_nil, or_false] at hRegistry
    rcases hRegistry with rfl | rfl
    · exact hFirst.separate
    · exact hSecond.separate
  entries := by
    intro slot one other hOne hOther
    obtain ⟨place, up, hPlace, hUp, hEntry⟩ := hFirst.place_of_get? hOne
    obtain ⟨same, above, hSame, hAbove, hThere⟩ := hSecond.place_of_get? hOther
    obtain rfl : place = same := Option.some.inj (hPlace.symm.trans hSame)
    exact ⟨_, _, place.parent, hEntry, hThere, rfl, rfl, rfl, hUp, hAbove⟩
  ancestry := by
    intro candidate ancestor
    by_cases hBoth : (meaning candidate).isSome ∧ (meaning ancestor).isSome
    · obtain ⟨here, hHere, hIff⟩ := hFirst.isA_eq hBoth.1 hBoth.2
      obtain ⟨there, hThere, hThereIff⟩ := hSecond.isA_eq hBoth.1 hBoth.2
      have hAnswer : here = there := Bool.eq_iff_iff.2 (hIff.trans hThereIff.symm)
      rw [hHere, hThere, hAnswer]
    · have hNone : meaning candidate = none ∨ meaning ancestor = none := by
        rw [not_and_or] at hBoth
        simpa using hBoth
      rw [hFirst.isA_of_none hNone, hSecond.isA_of_none hNone]

/-- The order of declarations does not matter. A list of declarations of different slots
and each of its permutations are accepted, and the registries they make cannot be told
apart through the slots.

The two registries number their kinds differently, so the kinds themselves cannot be
compared. What can be asked through slots is the same: names, messages, parents by slot,
and ancestry. -/
theorem declareAll_perm {entries others : List Entry}
    (hDistinct : (entries.map Entry.slot).Nodup) (hPerm : entries.Perm others) :
    ∃ first second, declareAll {} entries = .ok first ∧ declareAll {} others =
      .ok second ∧
      first.Agree second := by
  obtain ⟨first, hFirst, hMeans⟩ := means_empty.declareAll entries
  obtain ⟨second, hSecond, hOtherMeans⟩ := means_empty.declareAll others
  rw [← Meaning.foldl_declare_perm hPerm hDistinct] at hOtherMeans
  exact ⟨first, second, hFirst, hSecond, hMeans.agree hOtherMeans⟩

/-- A cycle of two kinds and a kind below one that is never declared, forwards and
backwards: the numbers differ. -/
theorem declareAll_perm_of_cycle :
    let entries : List Entry :=
      [⟨"low", "high", "Low", ""⟩, ⟨"high", "low", "High", ""⟩,
        ⟨"leaf", "none", "Leaf", "gone"⟩]
    (entries.map Entry.slot).Nodup ∧ entries.Perm entries.reverse ∧
      ∃ first second, declareAll {} entries = .ok first ∧
        declareAll {} entries.reverse = .ok second ∧ first.Agree second ∧
        first.slots.get? "leaf" = some ⟨8⟩ ∧ second.slots.get? "leaf" = some ⟨6⟩ := by
  intro entries
  have hDistinct : (entries.map Entry.slot).Nodup := by decide
  have hPerm : entries.Perm entries.reverse := (List.reverse_perm entries).symm
  obtain ⟨first, second, hFirst, hSecond, hAgree⟩ := declareAll_perm hDistinct hPerm
  have hForwards :
    (declareAll {} entries).map (fun registry => registry.slots.get? "leaf") =
      .ok (some ⟨8⟩) := by decide
  have hBackwards : (declareAll {} entries.reverse).map
      (fun registry => registry.slots.get? "leaf") = .ok (some ⟨6⟩) := by decide
  rw [hFirst] at hForwards
  rw [hSecond] at hBackwards
  exact ⟨hDistinct, hPerm, first, second, hFirst, hSecond, hAgree,
    Except.ok.inj hForwards, Except.ok.inj hBackwards⟩

end Registry

end Unwinding
