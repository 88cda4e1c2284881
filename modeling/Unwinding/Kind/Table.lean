import Unwinding.Notice

/-!
# The table of kinds

Kinds form a forest: every entry of a table has a parent, and a root is its own parent.
A kind may be declared before its parent is; the parent then gets a place of its own at
once, with neither a name nor a message, and becomes complete when its declaration
arrives.

`KindTable.isA` walks from a kind to the root of its tree. Declarations may close a
cycle of parents, so the walk is given as many steps as the table has entries: a kind
not met by then is not met at all.

`KindTable.register` either fails and changes nothing, or answers with the kind and
everything that changed.
-/

namespace Unwinding

/-- What a program says about a kind when it declares it. -/
structure Declaration where
  name : String
  message : String
  deriving DecidableEq, Repr, Inhabited

/-- A place of a table of kinds. It has no declaration while its kind is only known as
somebody's parent. -/
structure KindEntry where
  parent : Kind
  declaration : Option Declaration
  deriving DecidableEq, Repr, Inhabited

namespace KindEntry

/-- Whether the entry was made because another kind named it as its parent, and nobody
has declared it yet. -/
def isProvisional (entry : KindEntry) : Bool :=
  entry.declaration.isNone

/-- The name of a kind. An entry that nobody has declared shows that it has none. -/
def name (entry : KindEntry) : String :=
  (entry.declaration.map Declaration.name).getD "<unnamed>"

/-- The message of an exception of this kind that is raised without one. -/
def message (entry : KindEntry) : String :=
  (entry.declaration.map Declaration.message).getD ""

end KindEntry

/-- All kinds, by place, and whether more may be declared.

A kind is a place of the table and never moves. That parents are places too makes cycles
possible, as two kinds may name each other before either is declared; the walks up are
bounded by the size of the table for that reason. -/
structure KindTable where
  entries : List KindEntry
  isSealed : Bool := false
  deriving DecidableEq, Repr, Inhabited

namespace KindTable

/-- The table before any declaration: two placeholders and the kinds of the runtime
itself, each a root. -/
def initial : KindTable where
  entries := [
    ⟨⟨0⟩, some ⟨"<fell-through>", ""⟩⟩,
    ⟨⟨1⟩, some ⟨"<forwarded>", ""⟩⟩,
    ⟨.illegalEscape,
      some ⟨"IllegalEscape", "control left a protected region without closing it"⟩⟩,
    ⟨.stackExhausted, some ⟨"StackExhausted", "a runtime stack exceeded its capacity"⟩⟩,
    ⟨.stackCorrupted,
      some ⟨"StackCorrupted", "a runtime stack underflowed or lost its balance"⟩⟩]

/-! ## Questions -/

/-- The number of places, placeholders included. -/
def size (table : KindTable) : Nat :=
  table.entries.length

/-- Whether a program has declared anything. -/
def isEmpty (table : KindTable) : Bool :=
  table.size ≤ Kind.firstDeclared

/-- The entry of a kind; placeholders have none. -/
def entry (table : KindTable) (kind : Kind) : Except Error KindEntry :=
  if kind.id < Kind.placeholders then
    .error (.kindOutOfBounds kind.id)
  else
    match table.entries[kind.id]? with
    | some entry => .ok entry
    | none => .error (.kindOutOfBounds kind.id)

/-- The parent of a kind. A root is its own parent. -/
def parent (table : KindTable) (kind : Kind) : Except Error Kind :=
  (table.entry kind).map KindEntry.parent

/-- The name of a kind in texts, also of one that is not in the table. -/
def name (table : KindTable) (kind : Kind) : String :=
  match table.entry kind with
  | .ok entry => entry.name
  | .error _ => "<unknown>"

/-- The message of an exception of this kind that is raised without one. -/
def defaultMessage (table : KindTable) (kind : Kind) : String :=
  match table.entry kind with
  | .ok entry => entry.message
  | .error _ => ""

/-- Follows at most so many parent links from a kind, in search of an ancestor.

The bound is what ends a walk on a cycle. A walk that comes to a root ends there, since
a root is its own parent. -/
def climb (table : KindTable) (ancestor : Kind) : Nat → Kind → Except Error Bool
  | 0, _ => .ok false
  | steps + 1, current =>
      if current = ancestor then
        .ok true
      else
        match table.entry current with
        | .error e => .error e
        | .ok entry =>
            if entry.parent = current then .ok false else
              table.climb ancestor steps entry.parent

/-- Whether a kind is the given ancestor or lies below it. The ancestor is looked up
first. -/
def isA (table : KindTable) (candidate ancestor : Kind) : Except Error Bool :=
  match table.entry ancestor with
  | .error e => .error e
  | .ok _ => table.climb ancestor table.size candidate

/-- Every kind that is not a placeholder, with its entry. -/
def rows (table : KindTable) : List (Kind × KindEntry) :=
  (table.entries.zipIdx.drop Kind.placeholders).map fun (entry, id) => (⟨id⟩, entry)

/-! ## Declarations -/

/-- The table, closed to further declarations. -/
def sealed (table : KindTable) : KindTable :=
  { table with isSealed := true }

/-- The kind that the next place of the table will stand for. -/
def nextKind (table : KindTable) : Kind :=
  ⟨table.size⟩

/-- Adds an entry at the end; without a parent it is a root. -/
def append (table : KindTable) (parent : Option Kind)
    (declaration : Option Declaration) :
    KindTable :=
  { table with entries := table.entries ++ [⟨parent.getD table.nextKind, declaration⟩] }

/-- Gives the entry of a kind its declaration and its parent. -/
def complete (table : KindTable) (kind parent : Kind) (declaration : Declaration) :
    KindTable :=
  { table with entries := table.entries.set kind.id ⟨parent, some declaration⟩ }

/-- The outcome of a successful step of a registration. -/
structure Registered (α : Type) where
  value : α
  table : KindTable
  slots : Slots
  notices : List Notice := []

/-- The kind that a parent slot stands for, none when a kind is declared to be its own
parent. An empty parent slot is given a provisional root. -/
def resolveParent (table : KindTable) (slots : Slots) (slot parent : String) :
    Except Error (Registered (Option Kind)) :=
  if slot = parent then
    .ok ⟨none, table, slots, []⟩
  else
    match slots.get? parent with
    | some kind =>
        match table.entry kind with
        | .error e => .error e
        | .ok _ => .ok ⟨some kind, table, slots, []⟩
    | none =>
        let kind := table.nextKind
        .ok ⟨some kind, table.append none none, slots.fill parent kind,
          [.rootProvided kind]⟩

/-- Declares the kind of a slot. A kind that is complete already is answered as it is; a
provisional one receives its name, its message and its parent; an empty slot gets a new
place.

What can fail is looked at before anything is written. So a declaration that is refused
leaves no trace, not even a parent that would have been provided for it. -/
def register (table : KindTable) (slots : Slots) (slot parent : String)
    (declaration : Declaration) : Except Error (Registered Kind) :=
  if table.isSealed then
    .error (.kindTableSealed declaration.name)
  else
    match slots.get? slot with
    | some kind =>
        match table.entry kind with
        | .error e => .error e
        | .ok entry =>
            if entry.isProvisional then
              match table.resolveParent slots slot parent with
              | .error e => .error e
              | .ok resolved =>
                  .ok ⟨kind,
                    resolved.table.complete kind (resolved.value.getD kind) declaration,
                    resolved.slots,
                    resolved.notices ++ [.kindCompleted kind declaration.name]⟩
            else
              .ok ⟨kind, table, slots, []⟩
    | none =>
        match table.resolveParent slots slot parent with
        | .error e => .error e
        | .ok resolved =>
            let kind := resolved.table.nextKind
            .ok ⟨kind,
              resolved.table.append resolved.value (some declaration),
              resolved.slots.fill slot kind,
              resolved.notices ++ [.kindRegistered kind declaration.name]⟩

end KindTable

end Unwinding
