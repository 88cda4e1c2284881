import Unwinding.Proofs.Ancestry

/-!
# Ancestry and later declarations

A declaration writes parent links, and it may rewrite one: a kind that was known only as
somebody's parent is completed with a parent of its own, by which whole trees may be
joined and cycles closed. Nothing that was an ancestor stops being one, because of what
is rewritten and where it stands:

* a declaration adds places to the table, and completes at most one place that has no
  declaration (`Edit`);
* a place without a declaration is a root (`Rooted`), so the link that is rewritten is
  the last one of every path through it.

A path of links can therefore only become longer, at an end that was provisional. One
that ends elsewhere is final.

## Main results

* `register_edits` : what a registration does to a table, said once.
* `Reachable.rooted` : kinds without a declaration are roots, in every table that
  declarations build.
* `Reachable.isA_kept` : ancestry is never revoked, and it is gained only below
  provisional kinds.
-/

namespace Unwinding

namespace KindTable

variable {table next later : KindTable} {kind above candidate ancestor last : Kind}

/-! ## What a registration does to a table -/

/-- The changes that registrations are made of.

A link is rewritten only at a place that was a root, which is why answers that were
final stay so. -/
inductive Edit : KindTable → KindTable → Prop
  /-- A kind is named as a parent: it gets a place, as a root without a declaration. -/
  | provide (table : KindTable) : Edit table (table.append none none)
  /-- A kind gets a place with its declaration. -/
  | place (table : KindTable) (parent : Option Kind) (declaration : Declaration) :
      Edit table (table.append parent (some declaration))
  /-- A place without a declaration receives one, and a parent with it. -/
  | complete {table : KindTable} {kind above : Kind}
      (provisional : table.entry kind = .ok ⟨above, none⟩) (parent : Kind)
      (declaration : Declaration) : Edit table (table.complete kind parent declaration)

/-- Looking up a parent gives it a place, or changes nothing. -/
theorem resolveParent_edits {slots : Slots} {slot parent : String}
    {resolved : Registered (Option Kind)}
    (h : table.resolveParent slots slot parent = .ok resolved) :
    Relation.ReflTransGen Edit table resolved.table ∧
      ∀ kind entry, table.entry kind = .ok entry →
        resolved.table.entry kind = .ok entry := by
  have unchanged : Relation.ReflTransGen Edit table table ∧
      ∀ kind entry, table.entry kind = .ok entry → table.entry kind = .ok entry :=
        ⟨.refl, fun _ _ => id⟩
  unfold KindTable.resolveParent at h
  split at h
  · cases h
    exact unchanged
  · split at h
    · split at h
      · cases h
      · cases h
        exact unchanged
    · cases h
      refine ⟨.single (.provide table), fun kind entry hEntry => ?_⟩
      exact (entry_append_of_has (has_of_entry hEntry) none none).trans hEntry

/-- A registration is a sequence of changes to the table, whatever slots it is made
with. -/
theorem register_edits {slots : Slots} {slot parent : String}
    {declaration : Declaration} {done : Registered Kind}
    (h : table.register slots slot parent declaration = .ok done) :
    Relation.ReflTransGen Edit table done.table := by
  unfold KindTable.register at h
  split at h
  · cases h
  · split at h
    · next kind _ =>
        cases hPlace : table.entry kind with
        | error e =>
            rw [hPlace] at h
            cases h
        | ok place =>
            obtain ⟨above, said⟩ := place
            cases said with
            | some said =>
                simp only [hPlace, KindEntry.isProvisional, Option.isNone_some,
                  Bool.false_eq_true, if_false] at h
                cases h
                exact .refl
            | none =>
                simp only [hPlace, KindEntry.isProvisional, Option.isNone_none, if_true]
                  at h
                cases hResolve : table.resolveParent slots slot parent with
                | error e =>
                    rw [hResolve] at h
                    cases h
                | ok resolved =>
                    obtain ⟨hEdits, hSame⟩ := resolveParent_edits hResolve
                    simp only [hResolve] at h
                    cases h
                    exact hEdits.tail (.complete (hSame kind _ hPlace) _ _)
    · cases hResolve : table.resolveParent slots slot parent with
      | error e =>
          rw [hResolve] at h
          cases h
      | ok resolved =>
          simp only [hResolve] at h
          cases h
          exact (resolveParent_edits hResolve).1.tail (.place _ _ _)

/-! ## Kinds without a declaration -/

/-- A kind that is known only as somebody's parent. -/
def Provisional (table : KindTable) (kind : Kind) : Prop :=
  ∃ parent, table.entry kind = .ok ⟨parent, none⟩

/-- Every kind without a declaration is its own parent. -/
def Rooted (table : KindTable) : Prop :=
  ∀ kind above, table.entry kind = .ok ⟨above, none⟩ → above = kind

private theorem rooted_initial : KindTable.initial.Rooted := by
  intro kind above hEntry
  have hDeclared : ∀ entry ∈ KindTable.initial.entries, entry.declaration ≠ none := by
    decide
  obtain ⟨-, hPlace⟩ := entry_eq_ok_iff.1 hEntry
  exact absurd rfl (hDeclared _ (List.mem_of_getElem? hPlace))

/-- An added place is a root unless it has a declaration. -/
theorem Rooted.append (h : table.Rooted) (hSize : Kind.placeholders ≤ table.size)
    {parent : Option Kind} {declaration : Option Declaration}
    (hRoot : declaration = none → parent = none) :
    (table.append parent declaration).Rooted := by
  intro kind above hEntry
  rcases (has_append_iff hSize parent declaration).1 (has_of_entry hEntry)
    with hOld | rfl
  · rw [entry_append_of_has hOld] at hEntry
    exact h kind above hEntry
  · rw [entry_append_next hSize] at hEntry
    cases hEntry
    rw [hRoot rfl]
    rfl

private theorem Edit.rooted (h : Edit table next)
    (hSize : Kind.placeholders ≤ table.size) (hRooted : table.Rooted) :
    next.Rooted := by
  cases h with
  | provide => exact hRooted.append hSize fun _ => rfl
  | place parent declaration => exact hRooted.append hSize nofun
  | @complete changed _ provisional parent declaration =>
      intro kind above hEntry
      by_cases hSame : kind = changed
      · subst hSame
        rw [entry_complete_self (has_of_entry provisional)] at hEntry
        cases hEntry
      · rw [entry_complete_of_ne hSame] at hEntry
        exact hRooted kind above hEntry

private theorem Edit.size_le (h : Edit table next) : table.size ≤ next.size := by
  cases h with
  | provide => rw [size_append]; exact Nat.le_succ _
  | place parent declaration => rw [size_append]; exact Nat.le_succ _
  | complete provisional parent declaration => rw [size_complete]

private theorem edits_rooted (h : Relation.ReflTransGen Edit table next)
    (hSize : Kind.placeholders ≤ table.size) (hRooted : table.Rooted) :
    Kind.placeholders ≤ next.size ∧ next.Rooted := by
  induction h with
  | refl => exact ⟨hSize, hRooted⟩
  | tail _ hLast ih => exact ⟨ih.1.trans hLast.size_le, hLast.rooted ih.1 ih.2⟩

/-- In every table that registrations lead to, a kind without a declaration is its own
parent. -/
theorem Reachable.rooted (h : Reachable table) : table.Rooted := by
  induction h with
  | initial => exact rooted_initial
  | registered before registers ih =>
      exact (edits_rooted (register_edits registers) before.sane.placeholders_le ih).2
  | sealed before ih => exact ih

/-! ## What a table keeps -/

/-- The kinds of a table are there for good, and so is what a complete place says. -/
structure Keeps (table later : KindTable) : Prop where
  has : ∀ kind, table.Has kind → later.Has kind
  complete : ∀ kind parent declaration,
    table.entry kind = .ok ⟨parent, some declaration⟩ →
    later.entry kind = .ok ⟨parent, some declaration⟩

private theorem Keeps.refl (table : KindTable) : table.Keeps table :=
  ⟨fun _ => id, fun _ _ _ => id⟩

private theorem Keeps.trans (h : table.Keeps next) (hLater : next.Keeps later) :
    table.Keeps later where
  has kind hKind := hLater.has kind (h.has kind hKind)
  complete kind parent declaration hEntry :=
    hLater.complete kind parent declaration (h.complete kind parent declaration hEntry)

private theorem keeps_append (table : KindTable) (parent : Option Kind)
    (declaration : Option Declaration) :
    table.Keeps (table.append parent declaration) where
  has _ hKind := hKind.append parent declaration
  complete _ _ _ hEntry :=
    (entry_append_of_has (has_of_entry hEntry) parent declaration).trans hEntry

private theorem Edit.keeps (h : Edit table next) : table.Keeps next := by
  cases h with
  | provide => exact keeps_append table none none
  | place parent declaration => exact keeps_append table parent (some declaration)
  | @complete changed _ provisional parent declaration =>
      refine ⟨fun kind hKind => (has_complete declaration).2 hKind,
        fun kind up said hEntry => ?_⟩
      have hOther : kind ≠ changed := by
        rintro rfl
        rw [provisional] at hEntry
        cases hEntry
      exact (entry_complete_of_ne hOther parent declaration).trans hEntry

private theorem keeps_of_edits (h : Relation.ReflTransGen Edit table later) :
    table.Keeps later := by
  induction h with
  | refl => exact .refl table
  | tail _ hLast ih => exact ih.trans hLast.keeps

/-- The second table is what one more registration makes of the first, with whatever
slots. -/
def Registers (table later : KindTable) : Prop :=
  ∃ slots slot parent declaration done, table.register slots slot parent declaration =
    .ok done ∧ done.table = later

private theorem Registers.keeps (h : Registers table later) : table.Keeps later := by
  obtain ⟨slots, slot, parent, declaration, done, hDone, rfl⟩ := h
  exact keeps_of_edits (register_edits hDone)

private theorem keeps_of_registers (h : Relation.ReflTransGen Registers table later) :
    table.Keeps later := by
  induction h with
  | refl => exact .refl table
  | tail _ hLast ih => exact ih.trans hLast.keeps

private theorem Reachable.of_registers (h : Reachable table)
    (hLater : Relation.ReflTransGen Registers table later) :
    Reachable later := by
  induction hLater with
  | refl => exact h
  | tail _ hLast ih =>
      obtain ⟨slots, slot, parent, declaration, done, hDone, rfl⟩ := hLast
      exact .registered ih hDone

/-! ## Paths -/

/-- A link leads from a complete place, where it is kept, or from a provisional one to
itself. -/
theorem Rooted.link_cases (h : table.Rooted) (hKeeps : table.Keeps later)
    (hLink : table.Link kind above) :
    later.Link kind above ∨ (table.Provisional kind ∧ above = kind) := by
  obtain ⟨hKind, hUp⟩ := link_iff.1 hLink
  obtain ⟨⟨parent, said⟩, hEntry⟩ := hKind.exists_entry
  rw [up_of_entry hEntry] at hUp
  subst hUp
  cases said with
  | some declaration =>
      exact .inl (link_of_entry (hKeeps.complete kind parent declaration hEntry))
  | none => exact .inr ⟨⟨parent, hEntry⟩, h kind parent hEntry⟩

/-- No path is lost: where a link is not kept, it led nowhere else. -/
theorem Rooted.path_kept (h : table.Rooted) (hKeeps : table.Keeps later)
    (hPath : Relation.ReflTransGen table.Link candidate ancestor) :
    Relation.ReflTransGen later.Link candidate ancestor := by
  induction hPath with
  | refl => exact .refl
  | tail _ hLink ih =>
      rcases h.link_cases hKeeps hLink with hKept | ⟨-, rfl⟩
      · exact ih.tail hKept
      · exact ih

/-- A path that is new leads on from a kind that was provisional. -/
theorem Closed.path_of_later (h : table.Closed) (hKeeps : table.Keeps later)
    (hCandidate : table.Has candidate)
    (hPath : Relation.ReflTransGen later.Link candidate ancestor) :
    Relation.ReflTransGen table.Link candidate ancestor ∨
      ∃ last, Relation.ReflTransGen table.Link candidate last ∧
        table.Provisional last := by
  induction hPath with
  | refl => exact .inl .refl
  | @tail middle up _ hLink ih =>
      rcases ih with hBefore | hProvisional
      · have hMiddle : table.Has middle := by
          obtain ⟨steps, rfl⟩ := (h.path_iff hCandidate).1 hBefore
          exact h.has_iterate hCandidate steps
        obtain ⟨⟨parent, said⟩, hEntry⟩ := hMiddle.exists_entry
        cases said with
        | none => exact .inr ⟨middle, hBefore, parent, hEntry⟩
        | some declaration =>
            have hSame : later.up middle = parent :=
              up_of_entry (hKeeps.complete middle parent declaration hEntry)
            obtain rfl : parent = up := hSame.symm.trans (link_iff.1 hLink).2
            exact .inl (hBefore.tail (link_of_entry hEntry))
      · exact .inr hProvisional

/-! ## Answers -/

/-- Ancestry is never revoked. In a table that declarations have built, with whatever
slots, take two of its kinds, and any further registrations, again with whatever slots.
An ancestor stays an ancestor. If a kind becomes an ancestor that was none, then the
chain of parents of the other one ended in a root that was provisional. So where no kind
is provisional, what the table answers about its kinds is final.

Sealing is not among the steps, because it changes no answer. -/
theorem Reachable.isA_kept (h : Reachable table)
    (hLater : Relation.ReflTransGen Registers table later) :
    (∀ candidate ancestor, table.isA candidate ancestor = .ok true →
      later.isA candidate ancestor = .ok true) ∧
    (∀ candidate ancestor, table.isA candidate ancestor = .ok false →
      later.isA candidate ancestor = .ok true →
      ∃ last, Relation.ReflTransGen table.Link candidate last ∧ table.Link last last ∧
        table.Provisional last) ∧
    ((∀ kind, ¬ table.Provisional kind) → ∀ candidate ancestor, table.Has candidate →
      table.Has ancestor →
      later.isA candidate ancestor = table.isA candidate ancestor) := by
  have hClosed : table.Closed := h.sane.closed
  have hLaterClosed : later.Closed := (h.of_registers hLater).sane.closed
  have hKeeps : table.Keeps later := keeps_of_registers hLater
  have kept : ∀ candidate ancestor, table.isA candidate ancestor = .ok true →
      later.isA candidate ancestor = .ok true := by
    intro candidate ancestor hTrue
    obtain ⟨hCandidate, hAncestor, hPath⟩ := hClosed.isA_true_iff.1 hTrue
    exact hLaterClosed.isA_true_iff.2 ⟨hKeeps.has _ hCandidate, hKeeps.has _ hAncestor,
      h.rooted.path_kept hKeeps hPath⟩
  have gained : ∀ candidate ancestor, table.isA candidate ancestor = .ok false →
    later.isA candidate ancestor = .ok true →
      ∃ last, Relation.ReflTransGen table.Link candidate last ∧ table.Link last last ∧
        table.Provisional last := by
    intro candidate ancestor hFalse hTrue
    obtain ⟨hCandidate, -, hNone⟩ := hClosed.isA_false_iff.1 hFalse
    obtain ⟨-, -, hPath⟩ := hLaterClosed.isA_true_iff.1 hTrue
    rcases hClosed.path_of_later hKeeps hCandidate hPath
      with hBefore | ⟨last, hLast, parent, hEntry⟩
    · exact absurd hBefore hNone
    · obtain rfl : parent = last := h.rooted last parent hEntry
      exact ⟨parent, hLast, link_of_entry hEntry, parent, hEntry⟩
  refine ⟨kept, gained, fun hDone candidate ancestor hCandidate hAncestor => ?_⟩
  obtain ⟨answer, hAnswer, -⟩ := hClosed.isA_eq hCandidate hAncestor
  obtain ⟨other, hOther, -⟩ :=
    hLaterClosed.isA_eq (hKeeps.has _ hCandidate) (hKeeps.has _ hAncestor)
  rw [hAnswer, hOther]
  cases answer with
  | true => rw [← hOther, kept candidate ancestor hAnswer]
  | false =>
      cases other with
      | false => rfl
      | true =>
          obtain ⟨last, -, -, hProvisional⟩ := gained candidate ancestor hAnswer hOther
          exact absurd hProvisional (hDone last)

/-- A kind below a provisional one gains the ancestor that the provisional one is given,
and keeps the ancestor it had. -/
theorem isA_kept_of_completed :
    let entries : List Registry.Entry :=
      [⟨"leaf", "branch", "Leaf", ""⟩, ⟨"root", "root", "Root", ""⟩]
    let table := (Registry.ofEntries entries).table
    let later :=
      (Registry.ofEntries (entries ++ [⟨"branch", "root", "Branch", ""⟩])).table
    table.Reachable ∧ Relation.ReflTransGen Registers table later ∧
      table.isA ⟨6⟩ ⟨5⟩ = .ok true ∧ later.isA ⟨6⟩ ⟨5⟩ = .ok true ∧
      table.isA ⟨6⟩ ⟨7⟩ = .ok false ∧ later.isA ⟨6⟩ ⟨7⟩ = .ok true ∧
      ∃ last, Relation.ReflTransGen table.Link ⟨6⟩ last ∧ table.Link last last ∧
        table.Provisional last := by
  intro entries table later
  have hReachable : table.Reachable := Registry.reachable_ofEntries entries
  have hLater : Relation.ReflTransGen Registers table later :=
    .single ⟨(Registry.ofEntries entries).slots, "branch", "root", ⟨"Branch", ""⟩, _,
      rfl, rfl⟩
  obtain ⟨hKept, hGained, -⟩ := Reachable.isA_kept hReachable hLater
  have hBelow : table.isA ⟨6⟩ ⟨5⟩ = .ok true := by decide
  have hApart : table.isA ⟨6⟩ ⟨7⟩ = .ok false := by decide
  have hJoined : later.isA ⟨6⟩ ⟨7⟩ = .ok true := by decide
  exact ⟨hReachable, hLater, hBelow, hKept _ _ hBelow, hApart, hJoined,
    hGained _ _ hApart hJoined⟩

end KindTable

end Unwinding
