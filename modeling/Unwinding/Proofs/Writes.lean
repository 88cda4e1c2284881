import Unwinding.Kind.Archive
import Unwinding.Proofs.Registration

/-!
# All or nothing

Written out as a sequence of writes, a registration could fail half way: with a parent
that was provided for nothing, or with a slot that holds the kind of a place that nobody
declared. It does not, because every error is found before the first write. That is not
read off the text of `Archive.register`, where looking a kind up and writing alternate:
it is what makes the sequence of writes agree with `KindTable.register`, which answers
with everything that has changed or with an error and nothing else.

The two are related through what the sheets say (`KindSheet.table`). Name and message of
a place are written once, so completing a place writes what was declared only if nothing
was written there before: this is an invariant of the sheets (`KindSheet.Blank`).

## Main results

* `register_carries` : the writes of a registration come to what `KindTable.register`
  says of that table, and to nothing else.
* `kept_run` : what holds of the archive after every sequence of calls.
* `registry_run` : with one table only, the writes make what the calls to a registry
  make.
* `register_atomic` : a registration that fails has written nothing, and a sealed table
  stays as it is.
-/

namespace Unwinding

/-! ## What the cells say -/

namespace KindCells

/-- Nothing has been written to a place while it is provisional. -/
def Blank (cells : KindCells) : Prop :=
  cells.provisional = true → cells.name = none ∧ cells.message = none

private theorem isProvisional_entry (cells : KindCells) :
    cells.entry.isProvisional = cells.provisional := by
  cases h : cells.provisional <;> simp [entry, KindEntry.isProvisional, h]

/-- Completing a blank place takes all of the declaration. -/
theorem entry_completed {cells : KindCells} (h : cells.Blank)
    (hProvisional : cells.provisional = true) (parent : Kind)
    (declaration : Declaration) :
    (((cells.writeName declaration.name).writeMessage declaration.message).writeParent
      parent).confirm.entry =
      ⟨parent, some declaration⟩ := by
  obtain ⟨hName, hMessage⟩ := h hProvisional
  simp [entry, confirm, writeParent, writeMessage, writeName, hName, hMessage]

end KindCells

namespace KindSheet

variable {sheet : KindSheet} {kind : Kind} {cells : KindCells}

def Blank (sheet : KindSheet) : Prop :=
  ∀ cells ∈ sheet.places, cells.Blank

private theorem table_initial : initial.table = .initial := rfl

private theorem blank_initial : initial.Blank := by
  intro cells hCells hProvisional
  have hComplete : ∀ cells ∈ initial.places, cells.provisional = false := by decide
  rw [hComplete cells hCells] at hProvisional
  cases hProvisional

/-- The table that a sheet stands for has as many entries as the sheet has places. -/
theorem size_table (sheet : KindSheet) : sheet.table.size = sheet.places.length :=
  List.length_map _

private theorem entry_table (sheet : KindSheet) (kind : Kind) :
    sheet.table.entry kind = (sheet.cells kind).map KindCells.entry := by
  unfold KindTable.entry KindSheet.cells
  split
  · rfl
  · simp only [table, List.getElem?_map]
    cases sheet.places[kind.id]? <;> rfl

/-- Where the table has an entry the sheet has cells, and they say what it says. -/
theorem cells_of_entry {found : KindEntry} (h : sheet.table.entry kind = .ok found) :
    ∃ cells, sheet.cells kind = .ok cells ∧ cells.entry = found := by
  rw [entry_table] at h
  cases hCells : sheet.cells kind with
  | error error =>
      rw [hCells] at h
      cases h
  | ok cells =>
      rw [hCells] at h
      exact ⟨cells, rfl, Except.ok.inj h⟩

private theorem getElem?_of_cells (h : sheet.cells kind = .ok cells) :
    sheet.places[kind.id]? = some cells := by
  unfold KindSheet.cells at h
  split at h
  · cases h
  · split at h
    · next hFound =>
        cases h
        exact hFound
    · cases h

/-- The sheet with one more place. -/
def add (sheet : KindSheet) (parent : Option Kind) (name message : Option String) :
    KindSheet :=
  { sheet with
    places := sheet.places ++
      [.fresh (parent.getD ⟨sheet.places.length⟩) name message] }

/-- The sheet with a place rewritten. -/
def rewrite (sheet : KindSheet) (kind : Kind) (write : KindCells → KindCells) :
    KindSheet :=
  { sheet with places := sheet.places.modify kind.id write }

private theorem table_add (sheet : KindSheet) (parent : Option Kind)
    (declaration : Option Declaration) :
    (sheet.add parent (declaration.map Declaration.name)
      (declaration.map Declaration.message)).table =
      sheet.table.append parent declaration := by
  have hEntry (parent : Kind) :
      (KindCells.fresh parent (declaration.map Declaration.name)
      (declaration.map Declaration.message)).entry = ⟨parent, declaration⟩ := by
    cases declaration <;> rfl
  have hNext : sheet.table.nextKind = ⟨sheet.places.length⟩ :=
    congrArg Kind.mk sheet.size_table
  unfold KindTable.append
  rw [hNext, ← hEntry]
  simp only [table, add, List.map_append, List.map_cons, List.map_nil]

private theorem Blank.add (h : sheet.Blank) (parent : Option Kind)
    (declaration : Option Declaration) :
    (sheet.add parent (declaration.map Declaration.name)
      (declaration.map Declaration.message)).Blank := by
  intro cells hCells
  rcases List.mem_append.1 hCells with hOld | hNew
  · exact h cells hOld
  · rw [List.mem_singleton.1 hNew]
    cases declaration with
    | none => exact fun _ => ⟨rfl, rfl⟩
    | some declaration => exact fun hProvisional => by cases hProvisional

/-- A place that is rewritten to say something says that, and every other place says
what it said. -/
theorem table_rewrite {write : KindCells → KindCells} {parent : Kind}
    {declaration : Declaration} (hCells : sheet.cells kind = .ok cells)
    (hWrite : (write cells).entry = ⟨parent, some declaration⟩) :
    (sheet.rewrite kind write).table =
      sheet.table.complete kind parent declaration := by
  have hFound := getElem?_of_cells hCells
  have hPlaces : (sheet.places.modify kind.id write).map KindCells.entry =
      (sheet.places.map KindCells.entry).set kind.id ⟨parent, some declaration⟩ := by
    apply List.ext_getElem?
    intro place
    rw [List.getElem?_map, List.getElem?_modify, List.getElem?_set, List.getElem?_map,
      List.length_map]
    by_cases hPlace : kind.id = place
    · subst hPlace
      have hLt := (List.getElem?_eq_some_iff.1 hFound).1
      rw [hFound, if_pos rfl, if_pos hLt, ← hWrite]
      simp
    · simp [hPlace]
  simp only [table, rewrite, KindTable.complete, hPlaces]

private theorem Blank.rewrite (h : sheet.Blank) {write : KindCells → KindCells}
    (hCells : sheet.cells kind = .ok cells)
    (hWrite : (write cells).provisional = false) :
    (sheet.rewrite kind write).Blank := by
  intro found hFound
  obtain ⟨place, hPlace⟩ := List.getElem?_of_mem hFound
  simp only [KindSheet.rewrite, List.getElem?_modify] at hPlace
  by_cases hSame : kind.id = place
  · subst hSame
    rw [getElem?_of_cells hCells] at hPlace
    simp only [if_true, Option.map_eq_map, Option.map_some, Option.some.injEq] at hPlace
    subst hPlace
    exact fun hProvisional => by rw [hWrite] at hProvisional; cases hProvisional
  · simp only [if_neg hSame, Option.map_eq_map, Option.map_id'] at hPlace
    exact h found (List.mem_of_getElem? hPlace)

end KindSheet

namespace Archive

variable {α β : Type} {archive left : Archive} {table : Nat} {kind : Kind}

/-! ## What the writes do -/

/-- Work that looks at the archive goes on with the archive it is in. -/
theorem bind_get {rest : Archive → Work β} {outcome : EStateM.Result Error Archive β}
    (h : rest archive archive = outcome) :
    (get >>= rest) archive = outcome := h

/-- Work that has been done is followed by what comes after it. -/
theorem bind_of_ok {start : Archive} {first : Work α} {rest : α → Work β} {answer : α}
    {outcome : EStateM.Result Error Archive β} (hFirst : first start = .ok answer left)
    (h : rest answer left = outcome) : (first >>= rest) start = outcome := by
  change EStateM.bind first rest start = outcome
  simpa only [EStateM.bind, hFirst] using h

private theorem put_put (archive : Archive) (table : Nat) (first second : KindSheet) :
    (archive.put table first).put table second = archive.put table second := by
  simp only [put, Archive.mk.injEq, and_true]
  funext other
  by_cases h : other = table <;> simp [h]

private theorem assign_eq (slot : String) (parent : Option Kind)
    (name message : Option String) (archive : Archive) :
    assign table slot parent name message archive =
      .ok ⟨(archive.sheets table).places.length⟩
        { archive.put table ((archive.sheets table).add parent name message) with
          slots := archive.slots.fill slot ⟨(archive.sheets table).places.length⟩ } :=
  rfl

/-- The four writes to a place come to one. -/
theorem completePlace_eq (parent : Kind) (declaration : Declaration)
    (archive : Archive) :
    completePlace table kind parent declaration archive =
      .ok () (archive.put table ((archive.sheets table).rewrite kind fun cells =>
        (((cells.writeName declaration.name).writeMessage
          declaration.message).writeParent parent).confirm)) := by
  let first :=
    archive.put table
    ((archive.sheets table).rewrite kind (.writeName declaration.name))
  let second :=
    first.put table
    ((first.sheets table).rewrite kind (.writeMessage declaration.message))
  let third :=
    second.put table ((second.sheets table).rewrite kind (.writeParent parent))
  change EStateM.Result.ok ()
    (third.put table ((third.sheets table).rewrite kind .confirm)) = _
  simp only [third, second, first, sheets_put_self, put_put, KindSheet.rewrite,
    List.modify_modify_eq]
  rfl

/-! ## What a registration comes to -/

/-- Only one table of an archive has become another, and the slots.

The other tables of the archive stay as they are, cell by cell. -/
structure Becomes (archive : Archive) (table : Nat) (registry : Registry)
    (left : Archive) : Prop where
  holds : left.registry table = registry
  others : ∀ other, other ≠ table → left.sheets other = archive.sheets other
  blank : (left.sheets table).Blank

/-- Work on an archive comes to what is said of one of its tables: all that is said, or
the error and nothing else. -/
def Carries (archive : Archive) (table : Nat) :
    Except Error (KindTable.Registered α) → EStateM.Result Error Archive α → Prop
  | .ok done, .ok answer left =>
    answer = done.value ∧ archive.Becomes table ⟨done.table, done.slots⟩ left
  | .error error, .error found left => found = error ∧ left = archive
  | _, _ => False

variable {said : Except Error (KindTable.Registered β)}

private theorem carries_of_eq {outcome : EStateM.Result Error Archive β} {answer : β}
    (hOutcome : outcome = .ok answer left)
    (h : archive.Carries table said (.ok answer left)) :
    archive.Carries table said outcome :=
  hOutcome ▸ h

private theorem carries_get {rest : Archive → Work β}
    (h : archive.Carries table said (rest archive archive)) :
    archive.Carries table said ((get >>= rest) archive) := h

private theorem carries_bind {start : Archive} {first : Work α} {rest : α → Work β}
    {answer : α} (hFirst : first start = .ok answer left)
    (h : archive.Carries table said (rest answer left)) :
    archive.Carries table said ((first >>= rest) start) :=
  bind_of_ok hFirst rfl ▸ h

private theorem carries_throws {first : Work α} {rest : α → Work β} {error : Error}
    (hFirst : first archive = .error error archive) :
    archive.Carries table (.error error) ((first >>= rest) archive) := by
  change archive.Carries table _ (EStateM.bind first rest archive)
  simp only [EStateM.bind, hFirst]
  exact ⟨rfl, rfl⟩

/-- What comes second is judged in every archive that what comes first may have left. -/
theorem Carries.bind {first : Work α} {rest : α → Work β}
    {saidFirst : Except Error (KindTable.Registered α)}
    (h : archive.Carries table saidFirst (first archive))
    (hOk : ∀ done left, saidFirst = .ok done →
      archive.Becomes table ⟨done.table, done.slots⟩ left →
      archive.Carries table said (rest done.value left))
    (hError : ∀ error, saidFirst = .error error → said = .error error) :
    archive.Carries table said ((first >>= rest) archive) := by
  cases hFirst : first archive with
  | ok answer left =>
      rw [hFirst] at h
      cases saidFirst with
      | error error => exact h.elim
      | ok done =>
          obtain ⟨rfl, hBecomes⟩ := h
          exact carries_bind hFirst (hOk done left rfl hBecomes)
  | error error left =>
      rw [hFirst] at h
      cases saidFirst with
      | ok done => exact h.elim
      | error found =>
          obtain ⟨rfl, rfl⟩ := h
          rw [hError _ rfl]
          exact carries_throws hFirst

/-- To read cells is to look at the sheet, and leaves the archive as it is. -/
theorem readCells_eq (table : Nat) (kind : Kind) (archive : Archive) :
    readCells table kind archive =
      match (archive.sheets table).cells kind with
      | .ok cells => .ok cells archive
      | .error error => .error error archive := by
  change (match (archive.sheets table).cells kind with
    | .ok cells => (pure cells : Work KindCells)
    | .error error => throw error) archive = _
  cases (archive.sheets table).cells kind <;> rfl

private theorem entry_of_cells {cells : KindCells}
    (h : (archive.sheets table).cells kind = .ok cells) :
    (archive.registry table).table.entry kind = .ok cells.entry := by
  rw [registry, KindSheet.entry_table, h]
  rfl

/-- Reading the cells of a kind is looking the kind up, and writes nothing. -/
theorem carries_readCells {kind : Kind} {rest : KindCells → Work β}
    (hFound : ∀ cells, (archive.sheets table).cells kind = .ok cells →
      archive.Carries table said (rest cells archive))
    (hError : ∀ error, (archive.registry table).table.entry kind = .error error →
      said = .error error) :
    archive.Carries table said ((readCells table kind >>= rest) archive) := by
  have hEntry : (archive.registry table).table.entry kind =
      ((archive.sheets table).cells kind).map KindCells.entry :=
    KindSheet.entry_table ..
  cases hCells : (archive.sheets table).cells kind with
  | ok cells => exact carries_bind (by rw [readCells_eq, hCells]) (hFound cells hCells)
  | error error =>
      rw [hCells] at hEntry
      rw [hError error hEntry]
      exact carries_throws (by rw [readCells_eq, hCells])

private theorem Becomes.same (hBlank : (archive.sheets table).Blank) :
    archive.Becomes table (archive.registry table) archive :=
  ⟨rfl, fun _ _ => rfl, hBlank⟩

/-- The next place of a table that has become another is given to a slot. -/
theorem Becomes.assigned {registry : Registry} (h : archive.Becomes table registry left)
    (slot : String) (parent : Option Kind) (declaration : Option Declaration) :
    ∃ after, assign table slot parent (declaration.map Declaration.name)
      (declaration.map Declaration.message) left =
        .ok registry.table.nextKind after ∧
      archive.Becomes table ⟨registry.table.append parent declaration,
        registry.slots.fill slot registry.table.nextKind⟩ after := by
  obtain ⟨hHolds, hOthers, hBlank⟩ := h
  subst hHolds
  have hNext : (left.registry table).table.nextKind =
      ⟨(left.sheets table).places.length⟩ :=
    congrArg Kind.mk (left.sheets table).size_table
  rw [hNext]
  refine ⟨_, assign_eq .., ?_, fun other hOther => ?_, ?_⟩
  · simp only [registry, sheets_put_self, KindSheet.table_add]
  · exact (sheets_put_of_ne hOther ..).trans (hOthers other hOther)
  · simpa only [sheets_put_self] using hBlank.add parent declaration

/-- A provisional place of a table that has become another is completed. -/
theorem Becomes.completed {registry : Registry}
    (h : archive.Becomes table registry left) {cells : KindCells}
    (hCells : (left.sheets table).cells kind = .ok cells)
    (hProvisional : cells.provisional = true) (parent : Kind)
    (declaration : Declaration) :
    ∃ after, completePlace table kind parent declaration left = .ok () after ∧
      archive.Becomes table ⟨registry.table.complete kind parent declaration,
        registry.slots⟩ after := by
  obtain ⟨hHolds, hOthers, hBlank⟩ := h
  subst hHolds
  have hBlankCells : cells.Blank :=
    hBlank cells (List.mem_of_getElem? (KindSheet.getElem?_of_cells hCells))
  refine ⟨_, completePlace_eq .., ?_, fun other hOther => ?_, ?_⟩
  · simp only [registry, sheets_put_self]
    rw [KindSheet.table_rewrite hCells
      (KindCells.entry_completed hBlankCells hProvisional parent declaration)]
    rfl
  · exact (sheets_put_of_ne hOther ..).trans (hOthers other hOther)
  · rw [sheets_put_self]
    exact hBlank.rewrite hCells rfl

private theorem resolveParent_carries (hBlank : (archive.sheets table).Blank)
    (slot parent : String) :
    archive.Carries table
      ((archive.registry table).table.resolveParent archive.slots slot parent)
      (resolveParent table slot parent archive) := by
  unfold KindTable.resolveParent Archive.resolveParent
  by_cases hSelf : slot = parent
  · rw [if_pos hSelf, if_pos hSelf]
    exact ⟨rfl, .same hBlank⟩
  rw [if_neg hSelf, if_neg hSelf]
  refine carries_get ?_
  cases hParent : archive.slots.get? parent with
  | some kind =>
      refine carries_readCells (fun cells hCells => ?_) fun error hError => ?_
      · simp only [entry_of_cells hCells]
        exact ⟨rfl, .same hBlank⟩
      · dsimp only
        rw [hError]
  | none =>
      obtain ⟨after, hAssigned, hBecomes⟩ :=
        (Becomes.same hBlank).assigned parent none none
      exact carries_bind hAssigned ⟨rfl, hBecomes⟩

/-- The writes of a registration come to what `KindTable.register` says of the table. -/
theorem register_carries (hBlank : (archive.sheets table).Blank)
    (entry : Registry.Entry) :
    archive.Carries table
      ((archive.registry table).table.register archive.slots entry.slot entry.parent
        entry.declaration)
      (register table entry archive) := by
  unfold KindTable.register Archive.register
  refine carries_get ?_
  change archive.Carries table (if (archive.sheets table).isSealed = true then _ else _)
    _
  by_cases hSealed : (archive.sheets table).isSealed = true
  · rw [if_pos hSealed, if_pos hSealed]
    exact ⟨rfl, rfl⟩
  rw [if_neg hSealed, if_neg hSealed]
  refine carries_get ?_
  have hResolve := resolveParent_carries hBlank entry.slot entry.parent
  cases hSlot : archive.slots.get? entry.slot with
  | none =>
      dsimp only
      refine hResolve.bind (fun done left hSaid hBecomes => ?_) fun error hError => by
        rw [hError]
      obtain ⟨after, hAssigned, hAfter⟩ :=
        hBecomes.assigned entry.slot done.value (some entry.declaration)
      rw [hSaid]
      exact carries_of_eq hAssigned ⟨rfl, hAfter⟩
  | some kind =>
      refine carries_readCells (fun cells hCells => ?_) fun error hError => ?_
      · have hEntry := entry_of_cells hCells
        simp only [hEntry]
        rw [cells.isProvisional_entry]
        by_cases hProvisional : cells.provisional = true
        · rw [if_pos hProvisional, if_pos hProvisional]
          refine hResolve.bind (fun done left hSaid hBecomes => ?_) fun error hError =>
            by rw [hError]
          have hKept : (left.sheets table).table.entry kind = .ok cells.entry := by
            have hTable : (left.sheets table).table = done.table :=
              congrArg Registry.table hBecomes.holds
            rw [hTable]
            exact (Registry.resolveParent_changes hSaid).2.2 kind _ hEntry
          obtain ⟨found, hFound, hSame⟩ := KindSheet.cells_of_entry hKept
          have hStill : found.provisional = true := by
            rw [← found.isProvisional_entry, hSame, cells.isProvisional_entry,
              hProvisional]
          obtain ⟨after, hCompleted, hAfter⟩ :=
            hBecomes.completed hFound hStill (done.value.getD kind) entry.declaration
          rw [hSaid]
          exact carries_bind hCompleted ⟨rfl, hAfter⟩
        · rw [if_neg hProvisional, if_neg hProvisional]
          exact ⟨rfl, .same hBlank⟩
      · dsimp only
        rw [hError]

/-- A registration answers with what `KindTable.register` says, and writes that; or it
fails like that, and writes nothing. -/
theorem register_cases (hBlank : (archive.sheets table).Blank)
    (entry : Registry.Entry) :
    (∃ done left, (archive.registry table).table.register archive.slots entry.slot
      entry.parent entry.declaration = .ok done ∧
      register table entry archive = .ok done.value left ∧
        archive.Becomes table ⟨done.table, done.slots⟩ left) ∨
    (∃ error, (archive.registry table).table.register archive.slots entry.slot
      entry.parent entry.declaration = .error error ∧
      register table entry archive = .error error archive) := by
  have hCarries := register_carries hBlank entry
  cases hSaid : (archive.registry table).table.register archive.slots entry.slot
    entry.parent entry.declaration with
  | ok done =>
      rw [hSaid] at hCarries
      cases hOutcome : register table entry archive with
      | ok answer left =>
          rw [hOutcome] at hCarries
          obtain ⟨rfl, hBecomes⟩ := hCarries
          exact .inl ⟨done, left, rfl, rfl, hBecomes⟩
      | error error left =>
          rw [hOutcome] at hCarries
          exact hCarries.elim
  | error error =>
      rw [hSaid] at hCarries
      cases hOutcome : register table entry archive with
      | ok answer left =>
          rw [hOutcome] at hCarries
          exact hCarries.elim
      | error found left =>
          rw [hOutcome] at hCarries
          obtain ⟨rfl, rfl⟩ := hCarries
          exact .inr ⟨found, rfl, rfl⟩

/-- A registration that succeeds leaves the archive that it answered with. -/
theorem after_of_ok {entry : Registry.Entry} {answer : Kind}
    (h : register table entry archive = .ok answer left) :
    archive.after (.register table entry) = left := by
  simp only [after, h]

/-- A registration that fails leaves what it had written by then. -/
theorem after_of_error {entry : Registry.Entry} {error : Error}
    (h : register table entry archive = .error error left) :
    archive.after (.register table entry) = left := by
  simp only [after, h]

/-! ## Every archive -/

/-- What calls keep: provisional places are blank, every table has the kinds of the
runtime, and slots hold none of those.

That provisional places are blank is what makes a declaration complete: a text is
written only where none has been. -/
structure Kept (archive : Archive) : Prop where
  blank : ∀ table, (archive.sheets table).Blank
  floor : ∀ table, Kind.firstDeclared ≤ (archive.registry table).table.size
  slots : ∀ slot kind, archive.slots.get? slot = some kind →
    Kind.firstDeclared ≤ kind.id

private theorem kept_fresh : Kept {} where
  blank _ := KindSheet.blank_initial
  floor _ := by
    change Kind.firstDeclared ≤ KindSheet.initial.table.size
    rw [KindSheet.table_initial]
    decide
  slots _ _ h := by cases h

private theorem kept_of_changes {registry next : Registry}
    (h : Relation.ReflTransGen Registry.Change registry next)
    (hFloor : Kind.firstDeclared ≤ registry.table.size)
    (hSlots : ∀ slot kind, registry.slots.get? slot = some kind →
      Kind.firstDeclared ≤ kind.id) :
    Kind.firstDeclared ≤ next.table.size ∧
      ∀ slot kind, next.slots.get? slot = some kind → Kind.firstDeclared ≤ kind.id := by
  refine Registry.changes_induction (motive :=
    fun registry => Kind.firstDeclared ≤ registry.table.size ∧ ∀ slot kind,
    registry.slots.get? slot = some kind → Kind.firstDeclared ≤ kind.id)
    ?_ h ⟨hFloor, hSlots⟩
  rintro registry next hChange ⟨hFloor, hSlots⟩
  cases hChange with
  | @place filled _ above declaration =>
      refine ⟨by rw [KindTable.size_append]; omega, fun slot kind hSlot => ?_⟩
      by_cases hSame : slot = filled
      · subst hSame
        rw [Slots.get?_fill_self] at hSlot
        cases hSlot
        exact hFloor
      · rw [Slots.get?_fill_of_ne _ _ hSame] at hSlot
        exact hSlots slot kind hSlot
  | complete _ _ parent declaration =>
      exact ⟨by rw [KindTable.size_complete]; exact hFloor, hSlots⟩

private theorem Kept.becomes {done : KindTable.Registered Kind} {slot parent : String}
    {declaration : Declaration} (h : archive.Kept)
    (hDone : (archive.registry table).table.register archive.slots slot parent
      declaration = .ok done)
    (hBecomes : archive.Becomes table ⟨done.table, done.slots⟩ left) : left.Kept := by
  obtain ⟨hFloor, hSlots⟩ :=
    kept_of_changes (Registry.register_changes hDone).1 (h.floor table) h.slots
  have hSlotsAfter : left.slots = done.slots := congrArg Registry.slots hBecomes.holds
  refine ⟨fun other => ?_, fun other => ?_, hSlotsAfter ▸ hSlots⟩
  · by_cases hSame : other = table
    · exact hSame ▸ hBecomes.blank
    · rw [hBecomes.others other hSame]
      exact h.blank other
  · by_cases hSame : other = table
    · rw [hSame, hBecomes.holds]
      exact hFloor
    · have hOther := h.floor other
      unfold registry at hOther ⊢
      rwa [hBecomes.others other hSame]

/-- If the table accepts a registration, the archive does so as well, and keeps what the
table came to. -/
theorem Kept.register_of_ok {done : KindTable.Registered Kind} (h : archive.Kept)
    (entry : Registry.Entry)
    (hSaid : (archive.registry table).table.register archive.slots entry.slot
      entry.parent entry.declaration = .ok done) :
    ∃ left, register table entry archive = .ok done.value left ∧
      archive.Becomes table ⟨done.table, done.slots⟩ left := by
  rcases register_cases (h.blank table)
    entry with ⟨found, left, hFound, hAnswer, hBecomes⟩ | ⟨error, hError, -⟩
  · rw [hSaid] at hFound
    cases hFound
    exact ⟨left, hAnswer, hBecomes⟩
  · rw [hSaid] at hError
    cases hError

/-- If the table refuses it, so does the archive, with the same error, and stays as it
was. -/
theorem Kept.register_of_error {error : Error} (h : archive.Kept)
    (entry : Registry.Entry)
    (hSaid : (archive.registry table).table.register archive.slots entry.slot
      entry.parent entry.declaration = .error error) :
    register table entry archive = .error error archive := by
  rcases register_cases (h.blank table) entry with ⟨done, left, hDone, -, -⟩
    | ⟨found, hFound, hError⟩
  · rw [hSaid] at hDone
    cases hDone
  · rw [hSaid] at hFound
    cases hFound
    exact hError

private theorem Kept.after (h : archive.Kept) (call : Call) :
    (archive.after call).Kept := by
  cases call with
  | register table entry =>
      rcases register_cases (h.blank table)
        entry with ⟨done, left, hDone, hAnswer, hBecomes⟩ | ⟨error, -, hError⟩
      · rw [after_of_ok hAnswer]
        exact h.becomes hDone hBecomes
      · rw [after_of_error hError]
        exact h
  | close table =>
      refine ⟨fun other => ?_, fun other => ?_, h.slots⟩
      · by_cases hSame : other = table
        · subst hSame
          rw [Archive.after, sheets_put_self]
          exact h.blank other
        · rw [Archive.after, sheets_put_of_ne hSame]
          exact h.blank other
      · by_cases hSame : other = table
        · subst hSame
          rw [Archive.after, registry, sheets_put_self]
          exact h.floor other
        · rw [Archive.after, registry, sheets_put_of_ne hSame]
          exact h.floor other

/-- One more call is one after the others. -/
theorem run_concat (calls : List Call) (call : Call) :
    run (calls ++ [call]) = (run calls).after call :=
  List.foldl_concat ..

/-- Every archive that calls lead to is kept. -/
theorem kept_run (calls : List Call) : (run calls).Kept := by
  induction calls using List.reverseRecOn with
  | nil => exact kept_fresh
  | append_singleton calls call ih =>
      rw [run_concat]
      exact ih.after call

/-! ## An archive with one table -/

/-- A call to a registry, as a call to one of the tables of an archive. -/
def callTo (table : Nat) : Registry.Call → Call
  | .register entry => .register table entry
  | .close => .close table

private theorem Kept.registry_after (h : archive.Kept) (call : Registry.Call) :
    (archive.after (callTo table call)).registry table =
    (archive.registry table).after call := by
  cases call with
  | close =>
      change (archive.put table { archive.sheets table with isSealed := true }).registry
        table = _
      rw [registry, sheets_put_self]
      rfl
  | register entry =>
      rw [callTo, Registry.after, Registry.declare]
      rcases register_cases (h.blank table)
        entry with ⟨done, left, hDone, hAnswer, hBecomes⟩ | ⟨error, hSaid, hError⟩
      · rw [after_of_ok hAnswer, hBecomes.holds]
        simp only [registry] at hDone ⊢
        rw [hDone]
      · rw [after_of_error hError]
        simp only [registry] at hSaid ⊢
        rw [hSaid]

/-- As long as only one table is called, an archive holds what the registry does after
the same calls. -/
theorem registry_run (table : Nat) (calls : List Registry.Call) :
    (run (calls.map (callTo table))).registry table = Registry.run {} calls := by
  induction calls using List.reverseRecOn with
  | nil =>
      change (⟨KindSheet.initial.table, {}⟩ : Registry) = {}
      rw [KindSheet.table_initial]
  | append_singleton calls call ih =>
      rw [List.map_append, List.map_singleton, run_concat, (kept_run _).registry_after,
        ih]
      exact (Registry.run_append {} calls [call]).symm

/-! ## Sealed tables -/

/-- A sealed table refuses every registration. -/
theorem Kept.register_sealed (h : archive.Kept)
    (hSealed : (archive.sheets table).isSealed = true) (entry : Registry.Entry) :
    register table entry archive = .error (.kindTableSealed entry.declaration.name)
      archive :=
  h.register_of_error entry (if_pos hSealed)

/-- No call changes a sealed table. -/
theorem Kept.sheets_after (h : archive.Kept)
    (hSealed : (archive.sheets table).isSealed = true) (call : Call) :
    (archive.after call).sheets table = archive.sheets table := by
  cases call with
  | register other entry =>
      rcases register_cases (h.blank other)
        entry with ⟨done, left, hDone, hAnswer, hBecomes⟩ | ⟨error, -, hError⟩
      · rw [after_of_ok hAnswer]
        refine hBecomes.others table ?_
        rintro rfl
        rw [h.register_sealed hSealed] at hAnswer
        cases hAnswer
      · rw [after_of_error hError]
  | close other =>
      by_cases hSame : table = other
      · subst hSame
        rw [Archive.after, sheets_put_self, ← hSealed]
      · exact sheets_put_of_ne hSame ..

private theorem sheets_run_append (calls more : List Call)
    (hSealed : ((run calls).sheets table).isSealed = true) :
    (run (calls ++ more)).sheets table = (run calls).sheets table := by
  induction more using List.reverseRecOn with
  | nil => rw [List.append_nil]
  | append_singleton more call ih =>
      rw [← List.append_assoc, run_concat, (kept_run _).sheets_after (ih ▸ hSealed), ih]

private theorem isSealed_of_close {calls : List Call} (h : .close table ∈ calls) :
    ((run calls).sheets table).isSealed = true := by
  obtain ⟨earlier, more, rfl⟩ := List.append_of_mem h
  have hClosed : ((run (earlier ++ [.close table])).sheets table).isSealed = true := by
    rw [run_concat, Archive.after, sheets_put_self]
  have hSplit : earlier ++ Call.close table :: more = (earlier ++ [.close table]) ++
      more := by simp
  rw [hSplit, sheets_run_append _ more hClosed, hClosed]

/-- A registration is all or nothing, and sealing is final. After any sequence of calls
to any tables that share their slots, a registration fails where `KindTable.register`
does and with the same error, and then it has written nothing: all tables and all slots
are as they were, and no parent has been provided. Once a table has been sealed every
registration in it fails, whatever its slots hold, and whatever is called afterwards on
whichever table, its places stay as they are and so do all answers about its kinds.

The cells are written one at a time, and each of the writes could be the last if
something failed after it. Nothing can, as all that may fail is asked before the first
write. -/
theorem register_atomic (calls : List Call) :
    let archive := run calls
    (∀ table entry error left, register table entry archive = .error error left →
      left = archive ∧
      (archive.registry table).table.register archive.slots entry.slot entry.parent
        entry.declaration = .error error) ∧
    (∀ table, .close table ∈ calls → ∀ more,
      (run (calls ++ more)).sheets table = archive.sheets table ∧
      ∀ entry, register table entry (run (calls ++ more)) =
        .error (.kindTableSealed entry.declaration.name) (run (calls ++ more))) := by
  intro archive
  refine ⟨fun table entry error left hError => ?_, fun table hClosed more => ?_⟩
  · rcases register_cases ((kept_run calls).blank table)
      entry with ⟨done, after, -, hAnswer, -⟩ | ⟨found, hSaid, hFailed⟩
    · rw [hAnswer] at hError
      cases hError
    · rw [hFailed] at hError
      cases hError
      exact ⟨rfl, hSaid⟩
  · have hSealed := isSealed_of_close hClosed
    have hSame := sheets_run_append calls more hSealed
    exact ⟨hSame, (kept_run _).register_sealed (hSame ▸ hSealed)⟩

/-- A parent slot that another table has filled is refused, and the child's slot stays
empty; the other table is sealed and refuses even a slot that it has filled itself. -/
theorem register_atomic_of_foreignParent :
    let calls : List Call :=
      [.register 0 ⟨"root", "root", ⟨"Root", ""⟩⟩,
      .register 0 ⟨"leaf", "root", ⟨"Leaf", ""⟩⟩, .close 0]
    (∃ left, register 1 ⟨"child", "leaf", ⟨"Child", ""⟩⟩ (run calls) =
      .error (.kindOutOfBounds 6) left ∧ left = run calls) ∧
    register 0 ⟨"leaf", "leaf", ⟨"Late", ""⟩⟩
      (run (calls ++ [.register 1 ⟨"child", "child", ⟨"Child", ""⟩⟩])) =
      .error (.kindTableSealed "Late")
        (run (calls ++ [.register 1 ⟨"child", "child", ⟨"Child", ""⟩⟩])) := by
  intro calls
  obtain ⟨hFailed, hClosed⟩ := register_atomic calls
  have hRefused : register 1 ⟨"child", "leaf", ⟨"Child", ""⟩⟩ (run calls) =
      .error (.kindOutOfBounds 6) (run calls) := rfl
  exact ⟨⟨_, hRefused, (hFailed _ _ _ _ hRefused).1⟩,
    (hClosed 0 (by simp [calls]) _).2 _⟩

end Archive

end Unwinding
