import Unwinding.Proofs.Kinship
import Unwinding.Proofs.Writes

/-!
# Slots in a table that did not fill them

The error of a registration is documented for a slot that holds the kind of another
table. A slot holds a number, however, and every table numbers its kinds from the same
number on: whether a foreign slot is noticed depends on how long the tables are. A table
that is too short for the number refuses it, as the slot and as a parent. A table that
is long enough takes the number for its own: it answers it, completes the place of that
number, and links kinds under it.

## Main results

* `foreignSlot_taken` : not every slot of another table is refused.
* `Kept.refuses`, `Kept.takes` : which numbers a table refuses, and what it does with
  those that it has.
* `noticed_by_number` : a slot that some table has filled keeps its number, and by it
  every open table refuses or takes it.
-/

namespace Unwinding

namespace KindTable

variable {table : KindTable} {slots : Slots} {slot parent child : String} {kind : Kind}
    {found : KindEntry} {error : Error}
  {declaration : Declaration}

/-! ## One registration, by what the table knows of a kind -/

/-- A registration of this slot has something to write: the slot is empty, or its kind
is without a declaration. -/
def Awaits (table : KindTable) (slots : Slots) (slot : String) : Prop :=
  ∀ kind, slots.get? slot = some kind → table.Provisional kind

private theorem register_of_entry_error (hOpen : table.isSealed = false)
    (hSlot : slots.get? slot = some kind) (hEntry : table.entry kind = .error error) :
    table.register slots slot parent declaration = .error error := by
  simp only [register, hOpen, hSlot, hEntry, Bool.false_eq_true, if_false]

/-- A registration that has something to write fails if its parent cannot be found. -/
theorem register_of_resolveParent_error (hOpen : table.isSealed = false)
    (hAwaits : table.Awaits slots slot)
    (hResolve : table.resolveParent slots slot parent = .error error) :
    table.register slots slot parent declaration = .error error := by
  cases hSlot : slots.get? slot with
  | none => simp only [register, hOpen, hSlot, hResolve, Bool.false_eq_true, if_false]
  | some held =>
      obtain ⟨above, hHeld⟩ := hAwaits held hSlot
      have hProvisional : KindEntry.isProvisional ⟨above, none⟩ = true := rfl
      simp only [register, hOpen, hSlot, hHeld, hProvisional, hResolve,
        Bool.false_eq_true, if_false, if_true]

/-- A registration that has something to write puts what it declares under the parent
that it has found, without one under the kind itself. -/
theorem register_of_resolveParent {above : Option Kind} (hOpen : table.isSealed = false)
    (hSize : Kind.placeholders ≤ table.size) (hAwaits : table.Awaits slots slot)
    (hResolve : table.resolveParent slots slot parent = .ok ⟨above, table, slots, []⟩)
    (declaration : Declaration) :
    ∃ done, table.register slots slot parent declaration = .ok done ∧
      done.slots.get? slot = some done.value ∧
      done.table.entry done.value = .ok ⟨above.getD done.value, some declaration⟩ := by
  cases hSlot : slots.get? slot with
  | none =>
      simp only [register, hOpen, hSlot, hResolve, Bool.false_eq_true, if_false]
      exact ⟨_, rfl, Slots.get?_fill_self .., entry_append_next hSize ..⟩
  | some held =>
      obtain ⟨up, hHeld⟩ := hAwaits held hSlot
      have hProvisional : KindEntry.isProvisional ⟨up, none⟩ = true := rfl
      simp only [register, hOpen, hSlot, hHeld, hProvisional, hResolve,
        Bool.false_eq_true, if_false, if_true]
      exact ⟨_, rfl, hSlot, entry_complete_self (has_of_entry hHeld) ..⟩

private theorem resolveParent_of_entry_error (hNe : slot ≠ parent)
    (hParent : slots.get? parent = some kind)
    (hEntry : table.entry kind = .error error) :
    table.resolveParent slots slot parent = .error error := by
  simp only [resolveParent, if_neg hNe, hParent, hEntry]

private theorem resolveParent_of_entry (hNe : slot ≠ parent)
    (hParent : slots.get? parent = some kind) (hEntry : table.entry kind = .ok found) :
    table.resolveParent slots slot parent = .ok ⟨some kind, table, slots, []⟩ := by
  simp only [resolveParent, if_neg hNe, hParent, hEntry]

private theorem resolveParent_self (table : KindTable) (slots : Slots) (slot : String) :
    table.resolveParent slots slot slot = .ok ⟨none, table, slots, []⟩ :=
  if_pos rfl

end KindTable

namespace Archive

variable {archive : Archive} {calls : List Call} {table owner other : Nat}
    {slot : String} {kind : Kind}

/-! ## Slots of another table -/

/-- One of the calls, a registration in this table, gave the slot its number. -/
def Assigned (calls : List Call) (table : Nat) (slot : String) (kind : Kind) : Prop :=
  ∃ earlier entry later, calls = earlier ++ .register table entry :: later ∧
    (run earlier).slots.get? slot = none ∧
      ((run earlier).after (.register table entry)).slots.get? slot = some kind

/-- The table does not accept the slot, neither as the slot of a registration nor as the
parent of a slot that has something to be written, and nothing is written. -/
def Refuses (archive : Archive) (table : Nat) (slot : String) (kind : Kind) : Prop :=
  (∀ parent declaration, register table ⟨slot, parent, declaration⟩ archive =
    .error (.kindOutOfBounds kind.id) archive) ∧
  ∀ child declaration, child ≠ slot →
    (archive.registry table).table.Awaits archive.slots child →
    register table ⟨child, slot, declaration⟩ archive =
      .error (.kindOutOfBounds kind.id) archive

/-- The table takes the number of the slot for its own kind of that number. -/
structure Takes (archive : Archive) (table : Nat) (slot : String) (kind : Kind) :
    Prop where
  /-- A complete kind is answered, whatever is said of the slot. -/
  answers : ¬ (archive.registry table).table.Provisional kind → ∀ parent declaration,
    register table ⟨slot, parent, declaration⟩ archive = .ok kind archive
  /-- A provisional kind is completed through the slot. -/
  completes : (archive.registry table).table.Provisional kind → ∀ declaration, ∃ left,
    register table ⟨slot, slot, declaration⟩ archive = .ok kind left ∧
      (left.registry table).table.entry kind = .ok ⟨kind, some declaration⟩
  /-- A kind is declared under it. -/
  links : ∀ child declaration, child ≠ slot →
    (archive.registry table).table.Awaits archive.slots child → ∃ answer left,
    register table ⟨child, slot, declaration⟩ archive = .ok answer left ∧
      (left.registry table).table.entry answer = .ok ⟨kind, some declaration⟩

/-- A slot that one table has filled is not refused by every other one: where both have
given their first number, each answers it for the slot of the other.

The tables are equally long, so every number of the one is a number of the other. -/
theorem foreignSlot_taken :
    ¬ ∀ calls owner other slot kind, other ≠ owner → Assigned calls owner slot kind →
      ((run calls).sheets other).isSealed = false →
        (run calls).Refuses other slot kind := by
  intro h
  let first : Registry.Entry := ⟨"a", "a", ⟨"A", ""⟩⟩
  let second : Registry.Entry := ⟨"b", "b", ⟨"B", ""⟩⟩
  have hAssigned : Assigned [.register 0 first, .register 1 second] 0 "a" ⟨5⟩ :=
    ⟨[], first, [_], rfl, rfl, rfl⟩
  have hRefused := (h _ 0 1 "a" ⟨5⟩ (by decide) hAssigned rfl).1 "a" ⟨"Alias", ""⟩
  have hTaken :
    register 1 ⟨"a", "a", ⟨"Alias", ""⟩⟩ (run [.register 0 first, .register 1 second]) =
      .ok ⟨5⟩ (run [.register 0 first, .register 1 second]) := rfl
  rw [hTaken] at hRefused
  cases hRefused

/-! ## What is noticed -/

/-- A table refuses a slot whose number it does not have. -/
theorem Kept.refuses (h : archive.Kept)
    (hOpen : (archive.sheets table).isSealed = false)
    (hSlot : archive.slots.get? slot = some kind)
    (hHas : ¬ (archive.registry table).table.Has kind) :
    archive.Refuses table slot kind := by
  have hEntry := KindTable.entry_of_not_has hHas
  refine ⟨fun parent declaration => ?_, fun child declaration hNe hAwaits => ?_⟩
  · exact h.register_of_error _ (KindTable.register_of_entry_error hOpen hSlot hEntry)
  · exact h.register_of_error _ (KindTable.register_of_resolveParent_error hOpen hAwaits
      (KindTable.resolveParent_of_entry_error hNe hSlot hEntry))

/-- A registration of a complete kind writes nothing. -/
theorem register_of_complete {cells : KindCells} {entry : Registry.Entry}
    (hOpen : (archive.sheets table).isSealed = false)
    (hSlot : archive.slots.get? entry.slot = some kind)
    (hCells : (archive.sheets table).cells kind = .ok cells)
    (hComplete : cells.provisional = false) :
    register table entry archive = .ok kind archive := by
  unfold Archive.register
  refine bind_get ?_
  rw [hOpen, if_neg Bool.false_ne_true]
  refine bind_get ?_
  rw [hSlot]
  refine bind_of_ok (by rw [readCells_eq, hCells]) ?_
  rw [hComplete, if_neg Bool.false_ne_true]
  rfl

/-- A table takes a slot whose number it has, whoever filled the slot. -/
theorem Kept.takes (h : archive.Kept) (hOpen : (archive.sheets table).isSealed = false)
    (hSlot : archive.slots.get? slot = some kind)
    (hHas : (archive.registry table).table.Has kind) :
    archive.Takes table slot kind := by
  obtain ⟨found, hEntry⟩ := hHas.exists_entry
  have hSize : Kind.placeholders ≤ (archive.registry table).table.size :=
    hHas.1.trans hHas.2.le
  refine ⟨fun hComplete parent declaration => ?_, fun hProvisional declaration => ?_,
    fun child declaration hNe hAwaits => ?_⟩
  · obtain ⟨cells, hCells, rfl⟩ := KindSheet.cells_of_entry hEntry
    refine register_of_complete hOpen hSlot hCells
      (Bool.eq_false_iff.2 fun hProvisional => hComplete ⟨cells.parent, ?_⟩)
    rw [hEntry]
    simp only [KindCells.entry, hProvisional, if_true]
  · have hAwaits : (archive.registry table).table.Awaits archive.slots slot := by
      intro held hHeld
      rw [hSlot] at hHeld
      cases hHeld
      exact hProvisional
    obtain ⟨done, hDone, hFilled, hWritten⟩ :=
      KindTable.register_of_resolveParent hOpen hSize hAwaits
      (KindTable.resolveParent_self ..) declaration
    obtain ⟨left, hAnswer, hBecomes⟩ := h.register_of_ok ⟨slot, slot, declaration⟩ hDone
    have hKept : done.slots.get? slot = some kind :=
      (Registry.changes_grows (Registry.register_changes hDone).1).slots slot kind hSlot
    obtain rfl : done.value = kind := Option.some.inj (hFilled.symm.trans hKept)
    exact ⟨left, hAnswer, hBecomes.holds ▸ hWritten⟩
  · obtain ⟨done, hDone, -, hWritten⟩ :=
      KindTable.register_of_resolveParent hOpen hSize hAwaits
      (KindTable.resolveParent_of_entry hNe hSlot hEntry) declaration
    obtain ⟨left, hAnswer, hBecomes⟩ :=
      h.register_of_ok ⟨child, slot, declaration⟩ hDone
    exact ⟨_, left, hAnswer, hBecomes.holds ▸ hWritten⟩

/-- A slot keeps its number. -/
theorem Kept.slots_after (h : archive.Kept)
    (hSlot : archive.slots.get? slot = some kind) (call : Call) :
    (archive.after call).slots.get? slot = some kind := by
  cases call with
  | close table => exact hSlot
  | register table entry =>
      rcases register_cases (h.blank table)
        entry with ⟨done, left, hDone, hAnswer, hBecomes⟩ | ⟨error, -, hError⟩
      · have hGrows := Registry.changes_grows (Registry.register_changes hDone).1
        have hSlots : left.slots = done.slots := congrArg Registry.slots hBecomes.holds
        rw [after_of_ok hAnswer, hSlots]
        exact hGrows.slots slot kind hSlot
      · rw [after_of_error hError]
        exact hSlot

private theorem slots_run_append (calls more : List Call)
    (hSlot : (run calls).slots.get? slot = some kind) :
    (run (calls ++ more)).slots.get? slot = some kind := by
  induction more using List.reverseRecOn with
  | nil => rwa [List.append_nil]
  | append_singleton more call ih =>
      rw [← List.append_assoc, run_concat]
      exact (kept_run _).slots_after ih call

private theorem Assigned.slots (h : Assigned calls owner slot kind) :
    (run calls).slots.get? slot = some kind := by
  obtain ⟨earlier, entry, later, rfl, -, hFilled⟩ := h
  have hSplit : earlier ++ .register owner entry :: later =
      (earlier ++ [.register owner entry]) ++ later := by simp
  rw [hSplit]
  exact slots_run_append _ later (run_concat earlier _ ▸ hFilled)

/-- Foreign slots are noticed by their number. After any calls to any tables, take a
slot that one of the tables has filled, and any table that is open. The slot holds the
number that it was given, which is none of the kinds of the runtime. If the open table
is too short for that number it refuses the slot, as the slot and as a parent, and
nothing is written; if not, it takes the number for a kind of its own, no matter which
table filled the slot.

This is an exact account: a foreign slot is refused or taken, and its number alone
decides which. -/
theorem noticed_by_number (hAssigned : Assigned calls owner slot kind)
    (hOpen : ((run calls).sheets other).isSealed = false) :
    (run calls).slots.get? slot = some kind ∧ Kind.firstDeclared ≤ kind.id ∧
    (((run calls).sheets other).places.length ≤ kind.id →
      (run calls).Refuses other slot kind) ∧
    (kind.id < ((run calls).sheets other).places.length →
      (run calls).Takes other slot kind) := by
  have hKept := kept_run calls
  have hSlot := hAssigned.slots
  have hNumber := hKept.slots slot kind hSlot
  have hSize := KindSheet.size_table ((run calls).sheets other)
  refine ⟨hSlot, hNumber, fun hShort => ?_, fun hLong => ?_⟩
  · refine hKept.refuses hOpen hSlot fun hHas => ?_
    have := hHas.2
    rw [registry, hSize] at this
    omega
  · have hPlaceholders : Kind.placeholders ≤ Kind.firstDeclared := by decide
    exact hKept.takes hOpen hSlot ⟨hPlaceholders.trans hNumber, hSize ▸ hLong⟩

/-- Two tables with each other's slots: the shorter one refuses the number that it does
not have, and the longer one has its own provisional kind completed through the slot of
the shorter one. -/
theorem noticed_by_number_of_provisional :
    let calls : List Call :=
      [.register 0 ⟨"a", "a", ⟨"A", ""⟩⟩, .register 1 ⟨"b", "c", ⟨"B", ""⟩⟩]
    Assigned calls 0 "a" ⟨5⟩ ∧ Assigned calls 1 "b" ⟨6⟩ ∧
      register 0 ⟨"b", "b", ⟨"Again", ""⟩⟩ (run calls) =
        .error (.kindOutOfBounds 6) (run calls) ∧
      ∃ left, register 1 ⟨"a", "a", ⟨"Alias", ""⟩⟩ (run calls) = .ok ⟨5⟩ left ∧
        (left.registry 1).table.entry ⟨5⟩ = .ok ⟨⟨5⟩, some ⟨"Alias", ""⟩⟩ := by
  intro calls
  have hShort : Assigned calls 0 "a" ⟨5⟩ :=
    ⟨[], ⟨"a", "a", ⟨"A", ""⟩⟩, [_], rfl, rfl, rfl⟩
  have hLong : Assigned calls 1 "b" ⟨6⟩ :=
    ⟨[_], ⟨"b", "c", ⟨"B", ""⟩⟩, [], rfl, rfl, rfl⟩
  have hFirstOpen : ((run calls).sheets 0).isSealed = false := rfl
  have hSecondOpen : ((run calls).sheets 1).isSealed = false := rfl
  obtain ⟨-, -, hRefuses, -⟩ := noticed_by_number hLong hFirstOpen
  obtain ⟨-, -, -, hTakes⟩ := noticed_by_number hShort hSecondOpen
  exact ⟨hShort, hLong, (hRefuses (by decide)).1 "b" _,
    (hTakes (by decide)).completes ⟨⟨5⟩, rfl⟩ _⟩

end Archive

end Unwinding
