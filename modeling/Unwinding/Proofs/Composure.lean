import Unwinding.Proofs.Waiting

/-!
# Runs of which plain code tells

The bookkeeping computes what plain code does in runs that close in turn, in which
nothing foreign stops a raise, no escape is buried under another one, and no handle
takes its exit for the other one. A handle asks whether the thread unwinds, and whether
it did when the handle was opened, but it is not told what drops it: a handle of either
sort that is dropped inside a guard body may be mistaken (`Machine.Mistakes`).

`Composed` collects what is known of a state of such a run, and `Composed.reads` says
what there is to show of a step: what the focus and the waiting code stand for
afterwards, and that they come to the same on what the step leaves.

## Main results

* `Composed.step` — a step of such a run keeps all that is known.
* `Composed.reads`, `Composed.reads_tame` — what a step comes to.
-/

namespace Unwinding

open Plain

variable {ν : Type}

/-! ## Handles that are mistaken -/

/-- Whether it matters to a handle by what it is dropped. -/
def Handle.asksExit : Handle ν → Bool
  | .thread => false
  | .region _ _ => true
  | .call _ _ => false
  | .guards scope => scope.mark.isSome

/-- Whether the next step drops a handle that takes its exit for the other one. -/
def Machine.mistaken (m : Machine ν) : Bool :=
  match m.focus with
  | .drop handle =>
      handle.asksExit && (m.isPanicking && !handle.inUnwinding) != m.dropsByUnwinding
  | _ => false

namespace Machine

/-- A step of a run of which plain code tells.

Each condition excludes one way in which the runtime is known to differ from plain
exceptions, and nothing else. -/
structure Plainly (m : Machine ν) (ledger : List Extent) : Prop where
  orderly : m.Orderly ledger
  buries : ¬ m.Buries ledger
  knows : m.mistaken = false

instance (m : Machine ν) (ledger : List Extent) : Decidable (m.Plainly ledger) :=
  decidable_of_iff (m.Orderly ledger ∧ ¬ m.Buries ledger ∧ m.mistaken = false)
    ⟨fun h => ⟨h.1, h.2.1, h.2.2⟩, fun h => ⟨h.orderly, h.buries, h.knows⟩⟩

private theorem Plainly.accountable {m : Machine ν} {ledger : List Extent}
    (h : m.Plainly ledger) : m.Accountable ledger :=
  ⟨h.orderly.1, h.buries⟩

/-- A handle that asks for its exit knows it. -/
theorem Plainly.exit {m : Machine ν} {ledger : List Extent} (h : m.Plainly ledger)
    {handle : Handle ν} (hFocus : m.focus = .drop handle)
    (hAsks : handle.asksExit = true) :
    (m.isPanicking && !handle.inUnwinding) = m.dropsByUnwinding := by
  have hKnows := h.knows
  rw [mistaken, hFocus] at hKnows
  simpa [hAsks] using hKnows

end Machine

/-! ## What is known of a state -/

/-- All that is known of a state of such a run.

The invariants of escapes, of heights and of records were proved apart, and are put
together here because the evaluator has to be told of all of them at once. -/
structure Composed (m : Machine ν) (ledger : List Extent) (pile : Pile)
    (known : Lineage) : Prop where
  settled : Settled m ledger
  upright : Upright m ledger
  laden : Laden m ledger pile known

section

variable {m : Machine ν} {ledger : List Extent} {pile : Pile} {known : Lineage}

/-- One plain step leads from a composed state to another. The pile and what is
remembered go on with the deed of the step. -/
theorem Composed.step (h : Composed m ledger pile known) (hPlainly : m.Plainly ledger)
    (hGoesOn : m.step.poisoned = false) :
    Composed m.step (m.move.apply ledger) (pile.after (m.entries?.getD .empty) m.deed)
      (m.remember known) where
  settled := h.settled.step hPlainly.accountable hGoesOn
  upright := h.upright.step hPlainly.orderly.1 hGoesOn
  laden := h.laden.step hPlainly.orderly.1 hGoesOn

/-- Every run starts composed. -/
theorem composed_start (process : Process) (auto : Bool) (limits : Option Limits)
    (body : List (Stmt ν)) :
    Composed (Machine.start process auto limits body)
      (Machine.start process auto limits body).opened [] {} where
  settled := settled_start process auto limits body
  upright := upright_start process auto limits body
  laden := laden_start process auto limits body

/-- Where the thread is all that is open, no region or call is, and nothing is held
up. -/
theorem Composed.bare (h : Composed m ledger pile known)
    (hHead : ledger.head? = some .thread) :
    m.path = [] ∧ bodies m.control = [] ∧ ∃ flight, m.travels = [flight] := by
  obtain ⟨rest, rfl⟩ := List.head?_eq_some_iff.1 hHead
  cases hContext : m.context with
  | none => cases h.upright.stands.closed hContext
  | some context =>
      obtain ⟨floor, hLayered, -⟩ := h.upright.stands.nested context hContext
      have hFrames := (h.upright.aligned context hContext).frames
      have hBodies := h.settled.lively.bodies_sublist
      have hEntries := Machine.entries?_some hContext
      obtain ⟨rfl, hDispatch⟩ : rest = [] ∧ context.entries.dispatch = [] := by
        generalize context.entries.nextId = next at hLayered
        generalize context.entries.dispatch = dispatch at hLayered
        generalize context.entries.regions.map _ = regions at hLayered
        cases hLayered
        exact ⟨rfl, rfl⟩
      refine ⟨?_, List.sublist_nil.1 hBodies, ?_⟩
      · rw [Machine.path_of_entries hEntries, List.eq_nil_of_length_eq_zero hFrames]
        rfl
      · rw [Machine.travels_of_entries hEntries, Entries.travels, raisedAt_cons,
          Entries.parked, hDispatch]
        exact ⟨_, rfl⟩

/-! ## What a step comes to -/

/-- A deed that is nothing to the regions that stay open, and enters no traced call. -/
def Deed.IsTame : Deed → Prop
  | .abandons _ => False
  | .entersCall _ => False
  | _ => True

private theorem Machine.news?_of_tame {deed : Deed} (hRunning : m.returning? = none)
    (hDeed : m.deed = deed) (hTame : deed.IsTame) (id : Nat) :
    m.news? id ledger = none := by
  rw [news?, hRunning, hDeed]
  cases deed <;> first | rfl | exact hTame.elim

/-- What the bodies have to report that still wait after a step. -/
theorem Composed.pend_step (h : Composed m ledger pile known)
    (hPlainly : m.Plainly ledger) (hGoesOn : m.step.poisoned = false) {id : Nat}
    (hWaits : id ∈ bodies m.step.control) :
    m.step.pend id = (m.news? id ledger).toList.foldl News.owed (m.pend id) :=
  Unwinding.pend_step h.settled hPlainly.accountable hGoesOn
    ((h.settled.lively.step hPlainly.orderly.1 hGoesOn).bodies_sublist.subset hWaits)

private theorem Composed.pend_kept (h : Composed m ledger pile known)
    (hPlainly : m.Plainly ledger) (hGoesOn : m.step.poisoned = false) {id : Nat}
    (hWaits : id ∈ bodies m.step.control) (hQuiet : m.news? id ledger = none) :
    m.step.pend id = m.pend id := by
  rw [h.pend_step hPlainly hGoesOn hWaits, hQuiet]
  rfl

/-- What a machine shares with plain code, with the path, the escape and the history in
other words. -/
def Machine.readingAs (m : Machine ν) (path : List Site) (escape : Option Site)
    (log : List (Sighting ν)) : Store ν :=
  { m.reading with path, escape, log }

/-- A reading is put together from the sites of the calls, the escape that waits and
what was seen. -/
theorem Machine.reading_eq {path : List Site} {escape : Option Site}
    {log : List (Sighting ν)} (hPath : m.path = path)
    (hEscape : (bodies m.control).head?.bind m.pend = escape) (hLog : m.sights = log) :
    m.reading = m.readingAs path escape log := by
  rw [readingAs, ← hPath, ← hEscape, ← hLog]
  rfl

/-- The waiting code only matters for the blocks in it, and for which body an escape
would be reported by. -/
theorem Machine.reading_of_control {control : List (Resumption ν)}
    (h : m.control = control) :
    m.reading =
      { m.reading with
        escape := (bodies control).head?.bind m.pend
        blocks := blocksOf control } := by
  subst h
  rfl

/-- A reading of a thread that has a context says so. -/
theorem Machine.reading_open {context : Context} (h : m.context = some context) :
    m.reading = { m.reading with opened := true } := by
  unfold reading
  rw [h]
  rfl

variable {after : Machine ν} {deed : Deed} {clock : Nat} {log : List (Sighting ν)}
    {point : Point}
  {sent travels : List (Option Raised)} {code : Plain ν (point.Answer ν)}
  {follows : Except Thrown (point.Answer ν) → Plain ν (Option ν)}
  {final : Except Thrown (Option ν) × Store ν}

/-- What there is to show of a step that does something on the context. -/
theorem Composed.reads (h : Composed m ledger pile known) (hPlainly : m.Plainly ledger)
    (hGoesOn : m.step.poisoned = false) (hDeed : m.deed = deed) (hStep : m.step = after)
    {path : List Site} (hPath : after.path = path) {escape : Option Site}
    (hEscape : (bodies after.control).head?.bind after.pend = escape)
    (hLands : deed.LetsGo → sent.head? = some none) (hLog : after.sights = log)
    (hTravels : m.travels = sent)
    (means : after.Means clock (deed.sends m.sites sent) point travels code)
    (waits : Waits after.pend point clock travels after.control follows)
    (comes : code.meet follows (after.readingAs path escape log) = final) :
    m.step.Reads clock final := by
  subst hDeed hTravels
  have hTravels := h.laden.travels_step hPlainly.orderly.1 hGoesOn hLands
  rw [hStep] at hTravels ⊢
  refine .runs (hTravels ▸ means) waits ?_
  rw [Machine.reading_eq hPath hEscape hLog]
  exact comes

/-- What there is to show if the step is nothing to the bodies that still wait. -/
theorem Composed.reads_quiet (h : Composed m ledger pile known)
    (hPlainly : m.Plainly ledger) (hGoesOn : m.step.poisoned = false)
    (hDeed : m.deed = deed) (hStep : m.step = after)
    (hQuiet : ∀ id ∈ bodies after.control, m.news? id ledger = none) {path : List Site}
    (hPath : after.path = path) {escape : Option Site}
    (hEscape : (bodies after.control).head?.bind m.pend = escape)
    (hLands : deed.LetsGo → sent.head? = some none) (hLog : after.sights = log)
    (hTravels : m.travels = sent)
    (means : after.Means clock (deed.sends m.sites sent) point travels code)
    (waits : Waits m.pend point clock travels after.control follows)
    (comes : code.meet follows (after.readingAs path escape log) = final) :
    m.step.Reads clock final := by
  have hPend (id : Nat) (hWaits : id ∈ bodies after.control) :
      after.pend id = m.pend id := by
    subst hStep
    exact h.pend_kept hPlainly hGoesOn hWaits (hQuiet id hWaits)
  refine h.reads hPlainly hGoesOn hDeed hStep hPath ?_ hLands hLog hTravels means
    (waits.congr fun id hMem => hPend id (List.mem_of_mem_tail hMem)) comes
  rw [← hEscape]
  cases hBodies : bodies after.control with
  | nil => rfl
  | cons id outer => exact hPend id (hBodies ▸ List.mem_cons_self)

/-- What there is to show of most steps. -/
theorem Composed.reads_tame (h : Composed m ledger pile known)
    (hPlainly : m.Plainly ledger) (hGoesOn : m.step.poisoned = false)
    (hDeed : m.deed = deed) (hStep : m.step = after) (hRunning : m.returning? = none)
    (hTame : deed.IsTame) {escape : Option Site}
    (hEscape : (bodies after.control).head?.bind m.pend = escape)
    (hLands : deed.LetsGo → sent.head? = some none) (hLog : after.sights = log)
    (hTravels : m.travels = sent)
    (means : after.Means clock (deed.sends m.sites sent) point travels code)
    (waits : Waits m.pend point clock travels after.control follows)
    (comes : code.meet follows (after.readingAs (deed.walks m.path) escape log) =
      final) :
    m.step.Reads clock final := by
  have hPath : after.path = deed.walks m.path := by
    rw [← hStep, ← hDeed]
    refine path_step h.upright hPlainly.orderly.1 hGoesOn fun entry hCall => ?_
    rw [← hDeed, hCall] at hTame
    exact hTame
  exact h.reads_quiet hPlainly hGoesOn hDeed hStep
    (fun id _ => m.news?_of_tame hRunning hDeed hTame id) hPath hEscape hLands hLog
    hTravels means waits comes

/-- What there is to show of a step that does nothing on the context. -/
theorem Machine.Reads.of_same (hStep : m.step = after)
    (hContext : after.context = m.context) (hLog : after.sights = log)
    {escape : Option Site} (hEscape : (bodies after.control).head?.bind m.pend = escape)
    (hTravels : m.travels = sent) (means : after.Means clock sent point travels code)
    (waits : Waits m.pend point clock travels after.control follows)
    (comes : code.meet follows (after.readingAs m.path escape log) = final) :
    m.step.Reads clock final := by
  have hSent : after.travels = sent := by
    rw [← hTravels, Machine.travels, Machine.entries?, hContext]
    rfl
  have hPath : after.path = m.path := by
    rw [Machine.path, Machine.entries?, hContext]; rfl
  have hPend : after.pend = m.pend := by
    funext id
    rw [Machine.pend, hContext]
    rfl
  rw [hStep]
  refine .runs (hSent ▸ means) (hPend ▸ waits) ?_
  rw [Machine.reading_eq hPath (by rw [hPend, hEscape]) hLog]
  exact comes

end

end Unwinding
