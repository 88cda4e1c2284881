import Unwinding.Proofs.Declarations

/-!
# The law of the table of kinds

A registration may add no place to the table, one or two, and it may rewrite one that is
there. All of it is made of two changes (`Registry.Change`): an empty slot is given the
next place of the table, or the place that a slot holds without a declaration receives
one. Each of them keeps the numbering of the table and touches nothing that is complete,
and so does every sequence of calls.

What the places say is read off the meaning of the registry (`Registry.Means`): of all
registrations of a slot, the first that is accepted decides (`foldl_declare_apply`).

## Main results

* `Registry.declare_changes` : a registration is a sequence of the two changes.
* `Registry.lawful_ofEntries` : the law of the table, for every list of registrations.
* `Registry.run_lawful` : the law for every sequence of calls, sealing included, and
  what later calls leave of it.
-/

namespace Unwinding

namespace Registry

/-! ## Calls -/

/-- A call that may change the registry. -/
inductive Call
  | register (entry : Entry)
  /-- Seals the table. -/
  | close
  deriving DecidableEq, Repr

/-- The registry after a call. A registration that is refused leaves everything as it
was. -/
def after (registry : Registry) : Call → Registry
  | .register entry =>
      match registry.declare entry with
      | .ok (_, next, _) => next
      | .error _ => registry
  | .close => registry.sealed

/-- The registry after a sequence of calls. -/
def run (registry : Registry) (calls : List Call) : Registry :=
  calls.foldl after registry

/-- The registrations of a sequence of calls that are accepted, in order. -/
def accepted (registry : Registry) : List Call → List Entry
  | [] => []
  | .register entry :: calls =>
      match registry.declare entry with
      | .ok (_, next, _) => entry :: next.accepted calls
      | .error _ => registry.accepted calls
  | .close :: calls => registry.sealed.accepted calls

/-- The first of a list of registrations that is of a slot. -/
def firstOf (slot : String) (past : List Entry) : Option Entry :=
  past.find? fun entry => entry.slot = slot

/-- A slot is named as the parent by the first registration of some slot. -/
def NamedAsParent (slot : String) (past : List Entry) : Prop :=
  ∃ entry, firstOf entry.slot past = some entry ∧ entry.parent = slot

/-- The numbers that a program's kinds have. -/
def Numbers (registry : Registry) (kind : Kind) : Prop :=
  Kind.firstDeclared ≤ kind.id ∧ kind.id < registry.table.size

/-- What a registry is after registrations: how its slots and its places are numbered,
and which registration decided what each place says.

Which declaration counts for a slot is read off the list of accepted registrations
alone. -/
structure Lawful (registry : Registry) (past : List Entry) : Prop where
  separate : ∀ slot other kind, registry.slots.get? slot = some kind →
    registry.slots.get? other = some kind → slot = other
  filled : ∀ kind, (∃ slot, registry.slots.get? slot = some kind) ↔
    registry.Numbers kind
  reserved : ∀ id < Kind.firstDeclared,
    registry.table.entries[id]? = KindTable.initial.entries[id]?
  parents : ∀ kind, registry.Numbers kind →
    ∃ parent, registry.table.parent kind = .ok parent ∧ registry.Numbers parent
  registered : ∀ slot, (registry.slots.get? slot).isSome ↔
    (firstOf slot past).isSome ∨ NamedAsParent slot past
  declared : ∀ slot kind first, registry.slots.get? slot = some kind →
    firstOf slot past = some first → ∃ parent, registry.slots.get? first.parent =
      some parent ∧
      registry.table.entry kind = .ok ⟨parent, some first.declaration⟩
  provisional : ∀ slot kind, registry.slots.get? slot = some kind →
    firstOf slot past = none →
    NamedAsParent slot past ∧ registry.table.entry kind = .ok ⟨kind, none⟩

/-- What a registry keeps for good: the kinds of its slots, and its complete places. -/
structure Grows (registry next : Registry) : Prop where
  slots : ∀ slot kind, registry.slots.get? slot = some kind →
    next.slots.get? slot = some kind
  places : ∀ (id : Nat) (parent : Kind) (declaration : Declaration),
    registry.table.entries[id]? = some ⟨parent, some declaration⟩ →
      next.table.entries[id]? = some ⟨parent, some declaration⟩

variable {registry next last : Registry} {past calls : List Entry} {entry : Entry}
  {slot parent other : String} {kind up : Kind} {declaration : Declaration}

/-! ## The two changes of a registry -/

/-- What registrations are made of. -/
inductive Change : Registry → Registry → Prop
  /-- An empty slot gets the next place of the table. -/
  | place {registry : Registry} {slot : String}
    (empty : registry.slots.get? slot = none)
    (above : Option Kind) (declaration : Option Declaration) :
      Change registry ⟨registry.table.append above declaration,
        registry.slots.fill slot registry.table.nextKind⟩
  /-- The place of a slot receives the declaration it did not have. -/
  | complete {registry : Registry} {slot : String} {kind above : Kind}
      (holds : registry.slots.get? slot = some kind)
      (provisional : registry.table.entry kind = .ok ⟨above, none⟩) (parent : Kind)
      (declaration : Declaration) :
      Change registry ⟨registry.table.complete kind parent declaration, registry.slots⟩

private theorem Grows.refl (registry : Registry) : registry.Grows registry :=
  ⟨fun _ _ h => h, fun _ _ _ h => h⟩

private theorem Grows.trans (h : registry.Grows next) (hLater : next.Grows last) :
    registry.Grows last where
  slots slot kind hSlot := hLater.slots slot kind (h.slots slot kind hSlot)
  places id parent declaration hPlace :=
    hLater.places id parent declaration (h.places id parent declaration hPlace)

private theorem grows_sealed (registry : Registry) : registry.Grows registry.sealed :=
  ⟨fun _ _ h => h, fun _ _ _ h => h⟩

private theorem Change.grows (h : Change registry next) : registry.Grows next := by
  cases h with
  | place hEmpty above declaration =>
      refine ⟨fun other kind hOther => ?_, fun id parent found hPlace => ?_⟩
      · rw [Slots.get?_fill_of_ne]
        · exact hOther
        · rintro rfl
          rw [hEmpty] at hOther
          cases hOther
      · have hLt := (List.getElem?_eq_some_iff.1 hPlace).1
        rw [KindTable.append, List.getElem?_append_left hLt]
        exact hPlace
  | @complete slot kind above hHolds hProvisional parent declaration =>
      refine ⟨fun _ _ hOther => hOther, fun id up found hPlace => ?_⟩
      have hNe : kind.id ≠ id := by
        rintro rfl
        rw [(KindTable.entry_eq_ok_iff.1 hProvisional).2] at hPlace
        cases hPlace
      rw [KindTable.complete, List.getElem?_set_ne hNe]
      exact hPlace

/-- The slots hold the numbers from the first that programs have to the last of the
table, and no others. -/
structure Numbered (registry : Registry) : Prop where
  floor : Kind.firstDeclared ≤ registry.table.size
  filled : ∀ kind, (∃ slot, registry.slots.get? slot = some kind) ↔
    registry.Numbers kind

private theorem numbered_empty : Numbered {} where
  floor := by decide
  filled := by
    intro kind
    constructor
    · rintro ⟨slot, hSlot⟩
      cases hSlot
    · rintro ⟨hLow, hHigh⟩
      exact absurd hLow (Nat.not_le.2 hHigh)

private theorem Change.numbered (h : Change registry next)
    (hBefore : registry.Numbered) :
    next.Numbered := by
  cases h with
  | @place slot hEmpty above declaration =>
      have hFloor := hBefore.floor
      refine ⟨by rw [KindTable.size_append]; omega, fun kind => ?_⟩
      have hNext : registry.table.nextKind = kind ↔ kind.id = registry.table.size := by
        rw [eq_comm]
        cases kind
        simp [KindTable.nextKind]
      have hSize : Numbers ⟨registry.table.append above declaration,
            registry.slots.fill slot registry.table.nextKind⟩ kind ↔
          registry.Numbers kind ∨ registry.table.nextKind = kind := by
        rw [hNext]
        simp only [Numbers, KindTable.size_append]
        omega
      rw [hSize, ← hBefore.filled kind]
      constructor
      · rintro ⟨other, hOther⟩
        by_cases hEq : other = slot
        · subst hEq
          rw [Slots.get?_fill_self] at hOther
          exact .inr (Option.some.inj hOther)
        · rw [Slots.get?_fill_of_ne _ _ hEq] at hOther
          exact .inl ⟨other, hOther⟩
      · rintro (⟨other, hOther⟩ | rfl)
        · exact ⟨other, (Change.place hEmpty above declaration).grows.slots other kind
            hOther⟩
        · exact ⟨slot, Slots.get?_fill_self ..⟩
  | complete hHolds hProvisional parent declaration =>
      refine ⟨by rw [KindTable.size_complete]; exact hBefore.floor, fun kind => ?_⟩
      simpa only [Numbers, KindTable.size_complete] using hBefore.filled kind

/-! ## What a registration is made of -/

/-- The parent of a registration is looked up, or it is given a place; another slot and
its place stay as they are. -/
theorem resolveParent_changes {table : KindTable} {slots : Slots}
    {resolved : KindTable.Registered (Option Kind)}
    (h : table.resolveParent slots slot parent = .ok resolved) :
    Relation.ReflTransGen Change ⟨table, slots⟩ ⟨resolved.table, resolved.slots⟩ ∧
      resolved.slots.get? slot = slots.get? slot ∧
      (∀ kind entry, table.entry kind = .ok entry →
        resolved.table.entry kind = .ok entry) := by
  unfold KindTable.resolveParent at h
  split at h
  · cases h
    exact ⟨.refl, rfl, fun _ _ hEntry => hEntry⟩
  · rename_i hNe
    split at h
    · split at h
      · cases h
      · cases h
        exact ⟨.refl, rfl, fun _ _ hEntry => hEntry⟩
    · rename_i hEmpty
      cases h
      have hChange : Change ⟨table, slots⟩ ⟨table.append none none,
          slots.fill parent table.nextKind⟩ := .place hEmpty none none
      refine ⟨.single hChange, Slots.get?_fill_of_ne _ _ hNe,
        fun kind entry hEntry => ?_⟩
      exact (KindTable.entry_append_of_has (KindTable.has_of_entry hEntry)
        none none).trans hEntry

/-- A registration is a sequence of the two changes, and answers with the kind of its
slot. -/
theorem register_changes {table : KindTable} {slots : Slots}
    {done : KindTable.Registered Kind}
    (h : table.register slots slot parent declaration = .ok done) :
    Relation.ReflTransGen Change ⟨table, slots⟩ ⟨done.table, done.slots⟩ ∧
      done.slots.get? slot = some done.value := by
  unfold KindTable.register at h
  by_cases hSealed : table.isSealed = true
  · simp [hSealed] at h
  rw [if_neg hSealed] at h
  cases hSlot : slots.get? slot with
  | none =>
      rw [hSlot] at h
      cases hResolve : table.resolveParent slots slot parent with
      | error e => simp [hResolve] at h
      | ok resolved =>
          obtain ⟨hChanges, hSame, -⟩ := resolveParent_changes hResolve
          simp only [hResolve] at h
          cases h
          exact ⟨hChanges.tail (.place (hSame.trans hSlot) _ _),
            Slots.get?_fill_self ..⟩
  | some kind =>
      rw [hSlot] at h
      cases hPlace : table.entry kind with
      | error e => simp [hPlace] at h
      | ok place =>
          obtain ⟨above, said⟩ := place
          cases said with
          | some said =>
              simp only [hPlace, KindEntry.isProvisional, Option.isNone_some,
                Bool.false_eq_true, if_false] at h
              cases h
              exact ⟨.refl, hSlot⟩
          | none =>
              simp only [hPlace, KindEntry.isProvisional, Option.isNone_none, if_true]
                at h
              cases hResolve : table.resolveParent slots slot parent with
              | error e => simp [hResolve] at h
              | ok resolved =>
                  obtain ⟨hChanges, hSame, hKept⟩ := resolveParent_changes hResolve
                  simp only [hResolve] at h
                  cases h
                  have hHolds := hSame.trans hSlot
                  exact ⟨hChanges.tail (.complete hHolds (hKept kind _ hPlace) _ _),
                    hHolds⟩

/-- A declaration that is accepted is a sequence of the two changes that a registry
knows, after which the slot has its kind. -/
theorem declare_changes {notices : List Notice}
    (h : registry.declare entry = .ok (kind, next, notices)) :
    Relation.ReflTransGen Change registry next ∧ next.slots.get? entry.slot =
      some kind := by
  unfold declare at h
  split at h
  · rename_i done hDone
    cases h
    exact register_changes hDone
  · cases h

/-! ## Which registration decides -/

private theorem firstOf_append (slot : String) (past later : List Entry) :
    firstOf slot (past ++ later) = (firstOf slot past).or (firstOf slot later) :=
  List.find?_append ..

private theorem firstOf_singleton (slot : String) (entry : Entry) :
    firstOf slot [entry] = if entry.slot = slot then some entry else none := by
  simp [firstOf, List.find?_singleton]

/-- The first registration of a slot stays the first. -/
theorem firstOf_append_of_some {first : Entry} (h : firstOf slot past = some first)
    (later : List Entry) : firstOf slot (past ++ later) = some first := by
  rw [firstOf_append, h]
  rfl

/-- A registration of a slot that was registered before decides nothing. -/
theorem firstOf_concat_of_some (h : (firstOf entry.slot past).isSome) (slot : String) :
    firstOf slot (past ++ [entry]) = firstOf slot past := by
  rw [firstOf_append, firstOf_singleton]
  split
  · rename_i hEq
    subst hEq
    exact Option.or_of_isSome h
  · exact Option.or_none

private theorem firstOf_concat_of_ne (h : slot ≠ entry.slot) (past : List Entry) :
    firstOf slot (past ++ [entry]) = firstOf slot past := by
  rw [firstOf_append, firstOf_singleton, if_neg (Ne.symm h), Option.or_none]

private theorem firstOf_concat_self (h : firstOf entry.slot past = none) :
    firstOf entry.slot (past ++ [entry]) = some entry := by
  rw [firstOf_append, h, firstOf_singleton, if_pos rfl]
  rfl

private theorem namedAsParent_concat_of_some (h : (firstOf entry.slot past).isSome)
    (slot : String) :
    NamedAsParent slot (past ++ [entry]) ↔ NamedAsParent slot past := by
  simp only [NamedAsParent, firstOf_concat_of_some h]

/-- The first registration of a slot names its parent, besides what was named before. -/
theorem namedAsParent_concat (h : firstOf entry.slot past = none) (slot : String) :
    NamedAsParent slot (past ++ [entry]) ↔
      NamedAsParent slot past ∨ entry.parent = slot := by
  constructor
  · rintro ⟨first, hFirst, hParent⟩
    by_cases hEq : first.slot = entry.slot
    · rw [hEq, firstOf_concat_self h] at hFirst
      cases hFirst
      exact .inr hParent
    · rw [firstOf_concat_of_ne hEq] at hFirst
      exact .inl ⟨first, hFirst, hParent⟩
  · rintro (⟨first, hFirst, hParent⟩ | hParent)
    · exact ⟨first, firstOf_append_of_some hFirst _, hParent⟩
    · exact ⟨entry, firstOf_concat_self h, hParent⟩

open Classical in
/-- What registrations say of a slot: the first of them decides, and a slot without one
is registered when the first registration of another names it as the parent. -/
noncomputable def said (past : List Entry) : Meaning := fun slot =>
  match firstOf slot past with
  | some first => some ⟨first.parent, some first.declaration⟩
  | none => if NamedAsParent slot past then some ⟨slot, none⟩ else none

private theorem said_of_some {first : Entry} (h : firstOf slot past = some first) :
    said past slot = some ⟨first.parent, some first.declaration⟩ := by
  simp only [said, h]

private theorem said_of_named (h : firstOf slot past = none)
    (hNamed : NamedAsParent slot past) :
    said past slot = some ⟨slot, none⟩ := by
  simp only [said, h, if_pos hNamed]

private theorem said_of_not_named (h : firstOf slot past = none)
    (hNamed : ¬ NamedAsParent slot past) :
    said past slot = none := by
  simp only [said, h, if_neg hNamed]

private theorem said_congr {others : List Entry}
    (hFirst : firstOf slot past = firstOf slot others)
    (hNamed : NamedAsParent slot past ↔ NamedAsParent slot others) :
    said past slot = said others slot := by
  cases hOther : firstOf slot others with
  | some first => rw [said_of_some hOther, said_of_some (hFirst.trans hOther)]
  | none =>
      by_cases hName : NamedAsParent slot others
      · rw [said_of_named hOther hName,
          said_of_named (hFirst.trans hOther) (hNamed.2 hName)]
      · rw [said_of_not_named hOther hName,
          said_of_not_named (hFirst.trans hOther) (mt hNamed.1 hName)]

private theorem declares_said (past : List Entry) (slot : String) :
    (said past).Declares slot ↔ (firstOf slot past).isSome := by
  cases hFirst : firstOf slot past with
  | some first => simp [Meaning.Declares, said_of_some hFirst]
  | none =>
      by_cases hNamed : NamedAsParent slot past
      · simp [Meaning.Declares, said_of_named hFirst hNamed]
      · simp [Meaning.Declares, said_of_not_named hFirst hNamed]

/-- One more registration does to what is said what it does to a meaning. -/
theorem declare_said (past : List Entry) (entry : Entry) :
    (said past).declare entry = said (past ++ [entry]) := by
  funext slot
  by_cases hDeclares : (said past).Declares entry.slot
  · have hSome := (declares_said past entry.slot).1 hDeclares
    rw [Meaning.declare_of_declares hDeclares]
    exact said_congr (firstOf_concat_of_some hSome slot).symm
      (namedAsParent_concat_of_some hSome slot).symm
  have hNone : firstOf entry.slot past = none := by
    rw [declares_said] at hDeclares
    simpa using hDeclares
  rw [Meaning.declare_of_not_declares hDeclares]
  by_cases hSlot : slot = entry.slot
  · rw [hSlot, Meaning.put_self, said_of_some (firstOf_concat_self hNone)]
  rw [Meaning.put_of_ne hSlot]
  have hSame : firstOf slot (past ++ [entry]) = firstOf slot past :=
    firstOf_concat_of_ne hSlot past
  have hNamed := namedAsParent_concat hNone slot
  by_cases hParent : slot = entry.parent
  · subst hParent
    rw [Meaning.provide, Meaning.put_self]
    cases hFirst : firstOf entry.parent past with
    | some first =>
        rw [said_of_some (hSame.trans hFirst), said_of_some hFirst, Option.getD_some]
    | none =>
        rw [said_of_named (hSame.trans hFirst) (hNamed.2 (.inr rfl))]
        by_cases hBefore : NamedAsParent entry.parent past
        · rw [said_of_named hFirst hBefore, Option.getD_some]
        · rw [said_of_not_named hFirst hBefore, Option.getD_none]
  · rw [Meaning.provide_of_ne hParent]
    have hNot : ¬ entry.parent = slot := fun hEq => hParent hEq.symm
    exact said_congr hSame.symm (by rw [hNamed, or_iff_left hNot])

/-- Registrations mean what the first of each slot says. -/
theorem foldl_declare_eq_said (past : List Entry) :
    past.foldl Meaning.declare .empty = said past := by
  induction past using List.reverseRecOn with
  | nil =>
      funext slot
      exact (said_of_not_named rfl (fun ⟨entry, hFirst, _⟩ => by cases hFirst)).symm
  | append_singleton past entry ih => rw [List.foldl_concat, ih, declare_said]

/-! ## The law for a list of registrations -/

/-- What each of the two changes keeps, a sequence of them keeps. -/
theorem changes_induction {motive : Registry → Prop}
    (hChange : ∀ registry next, Change registry next → motive registry → motive next)
    (h : Relation.ReflTransGen Change registry next) (hBefore : motive registry) :
    motive next := by
  induction h with
  | refl => exact hBefore
  | tail _ hLast ih => exact hChange _ _ hLast ih

/-- So registries only grow. -/
theorem changes_grows (h : Relation.ReflTransGen Change registry next) :
    registry.Grows next :=
  changes_induction (fun _ _ hLast hGrows => hGrows.trans hLast.grows)
    h (.refl registry)

private theorem changes_numbered (h : Relation.ReflTransGen Change registry next)
    (hBefore : registry.Numbered) : next.Numbered :=
  changes_induction (fun _ _ hLast => hLast.numbered) h hBefore

private theorem changes_after (registry : Registry) (entry : Entry) :
    Relation.ReflTransGen Change registry (registry.after (.register entry)) := by
  simp only [after]
  split
  · rename_i hDeclare
    exact (declare_changes hDeclare).1
  · exact .refl

private theorem ofEntries_concat (past : List Entry) (entry : Entry) :
    ofEntries (past ++ [entry]) = (ofEntries past).after (.register entry) := by
  unfold ofEntries
  rw [List.foldl_concat]
  rfl

private theorem changes_ofEntries (past : List Entry) :
    Relation.ReflTransGen Change {} (ofEntries past) := by
  induction past using List.reverseRecOn with
  | nil => exact .refl
  | append_singleton past entry ih =>
      rw [ofEntries_concat]
      exact ih.trans (changes_after _ entry)

/-- The places of the runtime are complete from the start. -/
theorem reserved_of_grows (h : Grows {} registry) {id : Nat}
    (hId : id < Kind.firstDeclared) :
    registry.table.entries[id]? = KindTable.initial.entries[id]? := by
  have hLt : id < KindTable.initial.entries.length := hId
  have hComplete : ∀ place ∈ KindTable.initial.entries, place.declaration.isSome := by
    decide
  obtain ⟨place, hPlace⟩ : ∃ place, KindTable.initial.entries[id]? = some place :=
    ⟨_, List.getElem?_eq_getElem hLt⟩
  obtain ⟨declaration, hDeclaration⟩ :=
    Option.isSome_iff_exists.1 (hComplete place (List.mem_of_getElem? hPlace))
  obtain ⟨parent, said⟩ := place
  obtain rfl : said = some declaration := hDeclaration
  rw [hPlace]
  exact h.places id parent declaration hPlace

/-- The law of the table, for every list of registrations. The parent of a place is the
kind of a slot, so it is numbered as slots are. -/
theorem lawful_ofEntries (past : List Entry) : (ofEntries past).Lawful past := by
  have hMeans : (ofEntries past).Means (said past) :=
    foldl_declare_eq_said past ▸ means_ofEntries past
  have hNumbered : (ofEntries past).Numbered :=
    changes_numbered (changes_ofEntries past) numbered_empty
  have hGrows : Grows {} (ofEntries past) := changes_grows (changes_ofEntries past)
  refine ⟨hMeans.separate, hNumbered.filled, fun id hId => reserved_of_grows hGrows hId,
    ?_, ?_, ?_, ?_⟩
  · intro kind hKind
    obtain ⟨slot, hSlot⟩ := (hNumbered.filled kind).2 hKind
    obtain ⟨place, up, -, hUp, hEntry⟩ := hMeans.place_of_get? hSlot
    exact ⟨up, KindTable.link_of_entry hEntry, (hNumbered.filled up).1 ⟨_, hUp⟩⟩
  · intro slot
    rw [hMeans.isSome_iff]
    cases hFirst : firstOf slot past with
    | some first => simp [said_of_some hFirst]
    | none =>
        by_cases hNamed : NamedAsParent slot past
        · simp [said_of_named hFirst hNamed, hNamed]
        · simp [said_of_not_named hFirst hNamed, hNamed]
  · intro slot kind first hSlot hFirst
    obtain ⟨place, up, hPlace, hUp, hEntry⟩ := hMeans.place_of_get? hSlot
    rw [said_of_some hFirst] at hPlace
    cases hPlace
    exact ⟨up, hUp, hEntry⟩
  · intro slot kind hSlot hFirst
    obtain ⟨place, up, hPlace, hUp, hEntry⟩ := hMeans.place_of_get? hSlot
    by_cases hNamed : NamedAsParent slot past
    · rw [said_of_named hFirst hNamed] at hPlace
      cases hPlace
      obtain rfl : kind = up := Option.some.inj (hSlot.symm.trans hUp)
      exact ⟨hNamed, hEntry⟩
    · rw [said_of_not_named hFirst hNamed] at hPlace
      cases hPlace

/-! ## Program kinds and the kinds of the runtime -/

/-- Every kind of the runtime is its own parent for good. -/
theorem Lawful.up_reserved (h : registry.Lawful past) (hReserved : kind.isReserved) :
    registry.table.up kind = kind := by
  have hId : kind.id < Kind.firstDeclared := by simpa [Kind.isReserved] using hReserved
  have hSame : registry.table.entry kind = KindTable.initial.entry kind := by
    unfold KindTable.entry
    rw [h.reserved kind.id hId]
  have hRoots : ∀ id < Kind.firstDeclared, KindTable.initial.up ⟨id⟩ = ⟨id⟩ := by decide
  have hUp : registry.table.up kind = KindTable.initial.up kind := by
    unfold KindTable.up
    rw [hSame]
  rw [hUp]
  exact hRoots kind.id hId

private theorem Lawful.numbers_up (h : registry.Lawful past)
    (hKind : registry.Numbers kind) :
    registry.Numbers (registry.table.up kind) := by
  obtain ⟨parent, hLink, hParent⟩ := h.parents kind hKind
  rw [(KindTable.link_iff.1 hLink).2]
  exact hParent

private theorem Numbers.has (h : registry.Numbers kind) : registry.table.Has kind :=
  ⟨by have := h.1; simp only [Kind.firstDeclared, Kind.placeholders] at *; omega, h.2⟩

/-- The parents of program kinds are program kinds, and those of the runtime's kinds are
the kinds themselves. -/
theorem Lawful.closed (h : registry.Lawful past) : registry.table.Closed := by
  intro child parent hLink
  obtain ⟨hChild, rfl⟩ := KindTable.link_iff.1 hLink
  by_cases hReserved : child.isReserved
  · rw [h.up_reserved hReserved]
    exact hChild
  · refine (h.numbers_up ⟨?_, hChild.2⟩).has
    simpa [Kind.isReserved] using hReserved

/-- Neither is a kind of the runtime above a kind of a program, nor is it below one. -/
theorem Lawful.isA_apart (h : registry.Lawful past) {reserved : Kind}
    (hKind : registry.Numbers kind) (hHas : registry.table.Has reserved)
    (hReserved : reserved.isReserved) :
    registry.table.isA kind reserved = .ok false ∧ registry.table.isA reserved kind =
      .ok false := by
  have hId : reserved.id < Kind.firstDeclared := by
    simpa [Kind.isReserved] using hReserved
  have hUpwards : ∀ steps, registry.Numbers (registry.table.up^[steps] kind) := by
    intro steps
    induction steps with
    | zero => exact hKind
    | succ steps ih =>
        rw [Function.iterate_succ_apply']
        exact h.numbers_up ih
  have hStays : ∀ steps, registry.table.up^[steps] reserved = reserved := fun steps =>
    Function.iterate_fixed (h.up_reserved hReserved) steps
  have hNe : ∀ found, registry.Numbers found → found ≠ reserved := by
    rintro found hFound rfl
    exact absurd hId (Nat.not_lt.2 hFound.1)
  refine ⟨h.closed.isA_false_iff.2 ⟨hKind.has, hHas, ?_⟩,
    h.closed.isA_false_iff.2 ⟨hHas, hKind.has, ?_⟩⟩
  · rw [h.closed.path_iff hKind.has]
    rintro ⟨steps, hMet⟩
    exact hNe _ (hUpwards steps) hMet
  · rw [h.closed.path_iff hHas]
    rintro ⟨steps, hMet⟩
    exact hNe kind hKind ((hStays steps).symm.trans hMet).symm

/-! ## The law for every sequence of calls -/

private theorem Lawful.sealed (h : registry.Lawful past) :
    registry.sealed.Lawful past :=
  ⟨h.separate, h.filled, h.reserved, h.parents, h.registered, h.declared, h.provisional⟩

/-- Calls one after the other are run one after the other. -/
theorem run_append (registry : Registry) (calls more : List Call) :
    registry.run (calls ++ more) = (registry.run calls).run more :=
  List.foldl_append ..

private theorem accepted_append (registry : Registry) (calls more : List Call) :
    registry.accepted (calls ++ more) =
      registry.accepted calls ++ (registry.run calls).accepted more := by
  induction calls generalizing registry with
  | nil => rfl
  | cons call calls ih =>
      cases call with
      | close => exact ih registry.sealed
      | register entry =>
          simp only [List.cons_append, accepted, run, List.foldl_cons, after]
          split
          · rw [ih, List.cons_append]
            rfl
          · rw [ih]
            rfl

private theorem declare_sealed (registry : Registry) (entry : Entry) :
    registry.sealed.declare entry = .error (.kindTableSealed entry.declaration.name) :=
      by
  simp [declare, KindTable.register, Registry.sealed, KindTable.sealed]

/-- What a sequence of calls makes is made by the registrations that it accepts, and is
sealed from the first sealing on. Nothing is accepted after it. -/
theorem run_eq (calls : List Call) :
    run {} calls =
      if Call.close ∈ calls then (ofEntries (accepted {} calls)).sealed
      else ofEntries (accepted {} calls) := by
  induction calls using List.reverseRecOn with
  | nil => rfl
  | append_singleton calls call ih =>
      have hRun : run {} (calls ++ [call]) = (run {} calls).after call := run_append ..
      rw [hRun, accepted_append]
      by_cases hSealed : Call.close ∈ calls
      · have hNone : (run {} calls).accepted [call] = [] := by
          rw [ih, if_pos hSealed]
          cases call with
          | close => rfl
          | register entry => simp [accepted, declare_sealed]
        rw [hNone, List.append_nil, if_pos (List.mem_append_left _ hSealed), ih,
          if_pos hSealed]
        cases call with
        | close => rfl
        | register entry => simp [after, declare_sealed]
      · rw [ih, if_neg hSealed]
        cases call with
        | close =>
            rw [if_pos (by simp)]
            simp [accepted, after]
        | register entry =>
            obtain ⟨kind, next, notices, hDeclare, -⟩ :=
              (means_ofEntries (accepted {} calls)).declare entry
            have hOne : (ofEntries (accepted {} calls)).accepted [.register entry] =
                [entry] := by
              simp [accepted, hDeclare]
            rw [hOne, if_neg (by simpa using hSealed), ofEntries_concat]

private theorem lawful_run (calls : List Call) :
    (run {} calls).Lawful (accepted {} calls) := by
  rw [run_eq]
  split
  · exact (lawful_ofEntries _).sealed
  · exact lawful_ofEntries _

private theorem grows_run (registry : Registry) (calls : List Call) :
    registry.Grows (registry.run calls) := by
  induction calls generalizing registry with
  | nil => exact .refl registry
  | cons call calls ih =>
      refine Grows.trans ?_ (ih _)
      cases call with
      | close => exact grows_sealed registry
      | register entry => exact changes_grows (changes_after registry entry)

/-- A registration of a slot that has been declared is answered with its kind, and that
is all. -/
theorem Lawful.declare_again {first : Entry} (h : registry.Lawful past)
    (hOpen : registry.table.isSealed = false)
    (hFirst : firstOf entry.slot past = some first) :
    ∃ kind, registry.slots.get? entry.slot = some kind ∧
      registry.declare entry = .ok (kind, registry, []) := by
  have hRegistered : (registry.slots.get? entry.slot).isSome :=
    (h.registered entry.slot).2 (.inl (by rw [hFirst]; rfl))
  obtain ⟨kind, hKind⟩ := Option.isSome_iff_exists.1 hRegistered
  obtain ⟨parent, -, hEntry⟩ := h.declared entry.slot kind first hKind hFirst
  refine ⟨kind, hKind, ?_⟩
  simp [declare, KindTable.register, hOpen, hKind, hEntry, KindEntry.isProvisional]

/-- The law of the table of kinds, for every sequence of registrations and sealings.
Different slots hold different kinds, and the kinds they hold are numbered without gaps
from the first that programs have; parents of such kinds are such kinds, and the kinds
of the runtime stay what they are, neither above nor below them; a place without a
declaration is a root, and its slot has been named as a parent and nothing else; every
other place says what the first accepted registration of its slot said. A kind that a
slot has got and what a complete place says stay for good. Until the table is sealed
every registration succeeds and answers with the kind of the slot, and one of a slot
that has been declared changes nothing; afterwards every registration is refused.

The law is carried along by induction on the calls. Each registration that is accepted
is one or two of the changes that a registry knows, and each of these keeps every
clause. -/
theorem run_lawful (calls : List Call) :
    let registry := run {} calls
    let past := accepted {} calls
    registry.Lawful past ∧
    (∀ kind reserved, registry.Numbers kind → registry.table.Has reserved →
      reserved.isReserved → registry.table.isA kind reserved = .ok false ∧
      registry.table.isA reserved kind = .ok false) ∧
    (∀ more, registry.Grows (run {} (calls ++ more)) ∧ ∀ slot first,
      firstOf slot past = some first → firstOf slot (accepted {} (calls ++ more)) =
        some first) ∧
    (∀ entry, Call.close ∉ calls → ∃ kind next notices,
      registry.declare entry = .ok (kind, next, notices) ∧
        next.slots.get? entry.slot = some kind ∧
        ((firstOf entry.slot past).isSome → next = registry)) ∧
    (∀ entry, Call.close ∈ calls →
      registry.declare entry = .error (.kindTableSealed entry.declaration.name)) := by
  intro registry past
  have hLawful : registry.Lawful past := lawful_run calls
  refine ⟨hLawful, fun kind reserved hKind hHas hReserved =>
    hLawful.isA_apart hKind hHas hReserved, fun more => ⟨?_, ?_⟩, ?_, ?_⟩
  · rw [run_append]
    exact grows_run registry more
  · intro slot first hFirst
    rw [accepted_append]
    exact firstOf_append_of_some hFirst _
  · intro entry hOpen
    have hRun : registry = ofEntries past := (run_eq calls).trans (if_neg hOpen)
    obtain ⟨kind, next, notices, hDeclare, -⟩ := (means_ofEntries past).declare entry
    rw [← hRun] at hDeclare
    refine ⟨kind, next, notices, hDeclare, (declare_changes hDeclare).2,
      fun hSome => ?_⟩
    obtain ⟨first, hFirst⟩ := Option.isSome_iff_exists.1 hSome
    have hUnsealed : registry.table.isSealed = false :=
      hRun ▸ (means_ofEntries past).unsealed
    obtain ⟨found, -, hAgain⟩ := hLawful.declare_again hUnsealed hFirst
    rw [hAgain] at hDeclare
    cases hDeclare
    rfl
  · intro entry hSealed
    have hRun : registry = (ofEntries past).sealed :=
      (run_eq calls).trans (if_pos hSealed)
    rw [hRun]
    exact declare_sealed _ entry

/-- A parent that is named before it is declared, and completed with a parent of its
own: the place it was given is the first, and the runtime's kinds lie apart from it. -/
theorem run_lawful_of_completed :
    let calls : List Call := [.register ⟨"leaf", "branch", "Leaf", ""⟩,
      .register ⟨"branch", "root", "Branch", "b"⟩, .close]
    (run {} calls).Lawful (accepted {} calls) ∧
      (run {} calls).slots.get? "branch" = some ⟨5⟩ ∧
      (run {} calls).table.entry ⟨5⟩ = .ok ⟨⟨7⟩, some ⟨"Branch", "b"⟩⟩ ∧
      (run {} calls).table.isA .stackCorrupted ⟨5⟩ = .ok false ∧
      (run {} calls).declare ⟨"other", "other", "Other", ""⟩ =
        .error (.kindTableSealed "Other") := by
  intro calls
  obtain ⟨hLawful, hApart, -, -, hRefused⟩ := run_lawful calls
  have hNumbers : (run {} calls).Numbers ⟨5⟩ := by
    constructor
    · decide
    · decide
  exact ⟨hLawful, rfl, rfl,
    (hApart ⟨5⟩ .stackCorrupted hNumbers (by decide) (by decide)).2,
    hRefused _ (by decide)⟩

/-- After sealing, a slot that has been declared is refused like any other: its kind is
not answered.

The table refuses before it looks at the slot. -/
theorem declared_slot_refused :
    ¬ ∀ (calls : List Call) (entry : Entry),
      (firstOf entry.slot (accepted {} calls)).isSome →
        ∃ kind, (run {} calls).slots.get? entry.slot = some kind ∧
          (run {} calls).declare entry = .ok (kind, run {} calls, []) := by
  intro h
  obtain ⟨kind, -, hAnswer⟩ :=
    h [.register ⟨"a", "a", "A", ""⟩, .close] ⟨"a", "a", "A", ""⟩ (by decide)
  have hRefused :
    (run {} [.register ⟨"a", "a", "A", ""⟩, .close]).declare ⟨"a", "a", "A", ""⟩ =
      .error (.kindTableSealed "A") := rfl
  rw [hRefused] at hAnswer
  cases hAnswer

end Registry

end Unwinding
