import Unwinding.Proofs.Alongside
import Unwinding.Proofs.Termination

/-!
# Capacities

What one step of each of two machines comes to (`Machine.follows_step`) is followed here
through whole runs, of threads and of programs. Two runs that differ only in sizes do
the same if neither is refused a place; a run with smaller stacks goes as one with
larger ones up to the first place that it is refused; and a run with stacks of the same
sizes goes the same way whatever the nodes hold that these keep for later.

## Main results

* `Machine.Beside.steps`, `Program.Resized.run` — as long as everything finds its place,
  the sizes make no difference.
* `Machine.Beside.smaller`, `Program.Resized.keeps` — where stacks are smaller, a thread
  does the same or is cut short.
* `Machine.Beside.equal_steps` with `Machine.Beside.restock` — a thread never sees what
  a node held before.
-/

namespace Unwinding

open Context

variable {ν : Type}

/-! ## Runs side by side -/

/-- Every capacity is at most the other one. -/
def Limits.Within (few many : Limits) : Prop :=
  ∀ kind, few.get kind ≤ many.get kind

instance : Std.Refl Limits.Within :=
  ⟨fun _ _ => Nat.le_refl _⟩

/-- Nothing is asked of two capacities. -/
def Limits.Any (_ _ : Limits) : Prop :=
  True

instance : Std.Refl Limits.Any :=
  ⟨fun _ => trivial⟩

namespace Machine

variable {R : Limits → Limits → Prop} {m n : Machine ν}

/-- With its next step, a machine is refused a place on a stack that is full, and
terminated.

This is the only way in which a capacity shows, since a limit that is not reached is
never compared with anything but the depth. -/
def Refuses (m : Machine ν) (kind : StackKind) : Prop :=
  ∃ limits, m.Refused limits kind m.step

/-- A thread was terminated because a stack was full, and the report names that
stack. -/
def Exhausted (m : Machine ν) (kind : StackKind) : Prop :=
  ∃ (before : Machine ν) (limit : Nat) (dump : String),
    m = before.terminate ⟨.fatal, .stackExhausted,
      s!"fatal {before.registry.table.name .stackExhausted}: " ++
        (Error.capacityExceeded kind.name limit).text ++ "\n" ++ dump⟩

private theorem Refused.exhausted {limits : Limits} {kind : StackKind}
    {after : Machine ν} (h : m.Refused limits kind after) :
    after.Exhausted kind := by
  obtain ⟨control, context, -, -, rfl⟩ := h
  exact ⟨((m.withControl control false).store context).note
    (.fatal (.capacityExceeded kind.name (limits.get kind))), limits.get kind,
    context.dump, rfl⟩

/-- A run went as the other one, with larger stacks, up to a step in which it was
refused a place that the other one found. -/
def CutShort (m n : Machine ν) : Prop :=
  ∃ first kind limits, (∀ i ≤ first, (steps i m).Beside Limits.Within (steps i n)) ∧
    (steps first m).Refused limits kind (steps (first + 1) m) ∧
      (steps (first + 1) m).Exhausted kind ∧
    (steps (first + 1) n).Past limits kind

namespace Beside

private theorem step [Std.Refl R] (h : m.Beside R n) (hLeft : ∀ kind, ¬ m.Refuses kind)
    (hRight : ∀ kind, ¬ n.Refuses kind) :
    m.step.Beside R n.step := by
  cases follows_step h with
  | beside h => exact h
  | left _ _ isRefused _ => exact absurd ⟨_, isRefused⟩ (hLeft _)
  | right _ _ isRefused _ => exact absurd ⟨_, isRefused⟩ (hRight _)

/-- Machines side by side stay so for any number of steps, as long as neither is refused
a place on the way. -/
theorem steps [Std.Refl R] (h : m.Beside R n) {count : Nat}
    (hLeft : ∀ i < count, ∀ kind, ¬ (Machine.steps i m).Refuses kind)
    (hRight : ∀ i < count, ∀ kind, ¬ (Machine.steps i n).Refuses kind) :
    (Machine.steps count m).Beside R (Machine.steps count n) := by
  induction count with
  | zero => exact h
  | succ count ih =>
      have hBefore :=
        ih (fun i hi => hLeft i (Nat.lt_succ_of_lt hi))
        fun i hi => hRight i (Nat.lt_succ_of_lt hi)
      rw [steps_succ, steps_succ]
      exact hBefore.step (hLeft count (Nat.lt_succ_self count))
        (hRight count (Nat.lt_succ_self count))

/-- A machine with smaller stacks does what one with larger stacks does, or is refused a
place that the larger one finds. -/
theorem smaller_step (h : m.Beside Limits.Within n) :
    m.step.Beside Limits.Within n.step ∨
    ∃ kind limits, m.Refused limits kind m.step ∧ n.step.Past limits kind := by
  cases follows_step h with
  | beside h => exact .inl h
  | left _ _ isRefused isPast => exact .inr ⟨_, _, isRefused, isPast⟩
  | right isAllowed isSmaller _ _ =>
      exact absurd (isAllowed _) (Nat.not_le_of_lt isSmaller)

/-- It does so up to the first place that it is refused. -/
theorem smaller_steps (h : m.Beside Limits.Within n) (count : Nat) :
    (∀ i ≤ count, (Machine.steps i m).Beside Limits.Within (Machine.steps i n)) ∨
      m.CutShort n := by
  induction count with
  | zero =>
      refine .inl fun i hi => ?_
      obtain rfl := Nat.le_zero.1 hi
      exact h
  | succ count ih =>
      obtain hBeside | hCut := ih
      · obtain hStep | ⟨kind, limits, hRefused, hPast⟩ :=
          (hBeside count (Nat.le_refl count)).smaller_step
        · refine .inl fun i hi => ?_
          obtain hBefore | rfl := Nat.le_succ_iff.1 hi
          · exact hBeside i hBefore
          · rw [steps_succ, steps_succ]
            exact hStep
        · refine .inr ⟨count, kind, limits, hBeside, ?_, ?_, ?_⟩
          · rw [steps_succ]
            exact hRefused
          · rw [steps_succ]
            exact hRefused.exhausted
          · rw [steps_succ]
            exact hPast
      · exact .inr hCut

/-- Of two machines side by side, the one with smaller capacities is cut short where it
is first refused a place, or the two are never told apart. -/
theorem smaller (h : m.Beside Limits.Within n) :
    m.CutShort n ∨ ∀ count,
      (Machine.steps count m).Beside Limits.Within (Machine.steps count n) := by
  by_cases hCut : m.CutShort n
  · exact .inl hCut
  · exact .inr fun count => (h.smaller_steps count).resolve_right hCut count
      (Nat.le_refl count)

/-- Machines with equally large stacks do the same. -/
theorem equal_step (h : m.Beside Eq n) : m.step.Beside Eq n.step := by
  cases follows_step h with
  | beside h => exact h
  | left isAllowed isSmaller _ _ => exact absurd isSmaller (isAllowed ▸ Nat.lt_irrefl _)
  | right isAllowed isSmaller _ _ =>
      exact absurd isSmaller (isAllowed ▸ Nat.lt_irrefl _)

/-- With the same capacities they are never told apart, however many nodes are laid
out. -/
theorem equal_steps (h : m.Beside Eq n) (count : Nat) :
    (Machine.steps count m).Beside Eq (Machine.steps count n) := by
  induction count with
  | zero => exact h
  | succ count ih =>
      rw [steps_succ, steps_succ]
      exact ih.equal_step

/-- Nothing of the sizes is left in what is known of a thread in the end. -/
theorem report (h : m.Beside R n) : m.report = n.report := by
  unfold Machine.report
  rw [h.isInitialized]
  cases h with
  | refit configs contexts => rfl

private theorem weight (h : m.Beside R n) : m.weight = n.weight := by
  cases h with
  | refit configs contexts => rfl

private theorem run [Std.Refl R] (h : m.Beside R n)
    (hLeft : ∀ count kind, ¬ (Machine.steps count m).Refuses kind)
    (hRight : ∀ count kind, ¬ (Machine.steps count n).Refuses kind) :
    m.run.Beside R n.run := by
  unfold Machine.run
  rw [← h.weight]
  exact h.steps (fun i _ => hLeft i) fun i _ => hRight i

end Beside

end Machine

/-! ## Programs -/

/-- Two processes whose configurations differ in sizes only. -/
structure Process.Beside (R : Limits → Limits → Prop) (a b : Process) : Prop where
  registry : a.registry = b.registry
  printed : a.printed = b.printed
  configs : Option.Rel (Config.Beside R) a.config b.config

/-- Two programs that differ only in sizes: in those of their configurations, and in
those that their threads start with. -/
structure Program.Resized (R : Limits → Limits → Prop) (p q : Program ν) : Prop where
  threads : p.threads = q.threads
  auto : p.auto = q.auto
  registry : p.registry = q.registry
  configs : Option.Rel (Config.Beside R) p.config q.config
  limits : ∀ a b, R a b → R (p.limits.getD a) (q.limits.getD b)

namespace Machine

variable {R : Limits → Limits → Prop} {m n : Machine ν}

private theorem Beside.toProcess (h : m.Beside R n) :
    m.toProcess.Beside R n.toProcess := by
  cases h with
  | refit configs contexts => exact ⟨rfl, rfl, configs⟩

private theorem beside_fresh {a b : Process} (h : a.Beside R b)
    (control : List (Resumption ν)) :
    ({ toProcess := a, control, focus := .next } : Machine ν).Beside R
    { toProcess := b, control, focus := .next } := by
  obtain ⟨registry, config, printed⟩ := a
  obtain ⟨_, other, _⟩ := b
  obtain ⟨hRegistry, hPrinted, hConfigs⟩ := h
  obtain rfl := hRegistry
  obtain rfl := hPrinted
  exact .refit hConfigs .none

private theorem beside_start [Std.Refl R] {a b : Process} (h : a.Beside R b)
    {limits others : Option Limits}
    (hLimits : ∀ few many, R few many → R (limits.getD few) (others.getD many))
    (auto : Bool) (body : List (Stmt ν)) :
    (Machine.start a auto limits body).Beside R (Machine.start b auto others body) := by
  unfold Machine.start
  have hFresh := beside_fresh h [.block "" body [] none, .thread auto]
  cases auto with
  | false => exact hFresh
  | true =>
      obtain ⟨hOpened, hBeside⟩ := hFresh.openThread hLimits
      dsimp only
      generalize Machine.openThread _ limits = left at hOpened hBeside
      generalize Machine.openThread _ others = right at hOpened hBeside
      obtain ⟨outcome, m⟩ := left
      obtain ⟨other, n⟩ := right
      obtain rfl : outcome = other := hOpened
      cases outcome with
      | opened => exact hBeside
      | refused error => exact hBeside
      | overflowed => exact (beside_popped hBeside []).unwind _

private theorem Beside.stop (h : m.Beside R n) : m.stop = n.stop := by
  unfold Machine.stop
  rw [h.focus]

end Machine

namespace Program

/-- The remaining threads of a program, for as long as there is a process, find a place
for everything that they put onto their stacks. -/
def FitsFrom (program : Program ν) (process : Process) : List (List (Stmt ν)) → Prop
  | [] => True
  | body :: rest =>
      let m := Machine.start process program.auto program.limits body
      (∀ count kind, ¬ (Machine.steps count m).Refuses kind) ∧
        ((∃ kind silent, m.run.stop = .exited kind silent) ∨
          program.FitsFrom m.run.toProcess rest)

/-- No thread of a program needs more entries on a stack than the stack can hold. -/
def Fits (program : Program ν) : Prop :=
  program.FitsFrom { registry := program.registry, config := program.config }
    program.threads

variable {R : Limits → Limits → Prop} [Std.Refl R] {p q : Program ν}

private theorem Resized.runFrom (h : p.Resized R q) {threads : List (List (Stmt ν))}
    {a b : Process} (hProcess : a.Beside R b) (done : List (Report ν))
    (hLeft : p.FitsFrom a threads) (hRight : q.FitsFrom b threads) :
    p.runFrom a done threads = q.runFrom b done threads := by
  induction threads generalizing a b done with
  | nil =>
      unfold Program.runFrom
      rw [hProcess.printed]
  | cons body rest ih =>
      obtain ⟨hFinds, hRest⟩ := hLeft
      obtain ⟨hFinds', hRest'⟩ := hRight
      rw [← h.auto] at hFinds' hRest'
      have hRun :=
        (Machine.beside_start hProcess h.limits p.auto body).run hFinds hFinds'
      unfold Program.runFrom
      rw [← h.auto]
      dsimp only
      rw [← hRun.stop, ← hRun.report, ← hRun.toProcess.printed]
      split
      · rfl
      · next hGoesOn =>
          refine ih hRun.toProcess _ (hRest.resolve_left ?_) (hRest'.resolve_left ?_)
          · rintro ⟨kind, silent, hStop⟩
            exact hGoesOn kind silent hStop
          · rintro ⟨kind, silent, hStop⟩
            exact hGoesOn kind silent (hRun.stop.trans hStop)

/-- Programs that differ only in sizes do the same, if all their threads find places on
their stacks. -/
theorem Resized.run (h : p.Resized R q) (hLeft : p.Fits) (hRight : q.Fits) :
    p.run = q.run := by
  unfold Program.Fits at hRight
  rw [← h.threads] at hRight
  have hProcess : Process.Beside R { registry := p.registry, config := p.config }
      { registry := q.registry, config := q.config } :=
    ⟨h.registry, rfl, h.configs⟩
  have hRun := h.runFrom hProcess [] hLeft hRight
  rw [h.threads] at hRun
  unfold Program.run
  rw [h.threads]
  exact hRun

/-- What the remaining threads of a program with smaller stacks do, beside those of a
program with larger ones: the same, up to a thread that is cut short. -/
def KeepsFrom (p q : Program ν) (a b : Process) : List (List (Stmt ν)) → Prop
  | [] => True
  | body :: rest =>
      let m := Machine.start a p.auto p.limits body
      let n := Machine.start b q.auto q.limits body
      m.CutShort n ∨
        (∀ count,
        (Machine.steps count m).Beside Limits.Within (Machine.steps count n)) ∧
        p.KeepsFrom q m.run.toProcess n.run.toProcess rest

/-- A program with smaller stacks goes as one with larger ones, up to a thread that is
cut short. -/
def Keeps (p q : Program ν) : Prop :=
  p.KeepsFrom q { registry := p.registry, config := p.config }
    { registry := q.registry, config := q.config } p.threads

private theorem Resized.keepsFrom (h : p.Resized Limits.Within q)
    {threads : List (List (Stmt ν))} {a b : Process}
    (hProcess : a.Beside Limits.Within b) : p.KeepsFrom q a b threads := by
  induction threads generalizing a b with
  | nil => trivial
  | cons body rest ih =>
      unfold KeepsFrom
      rw [← h.auto]
      have hStart := Machine.beside_start hProcess h.limits p.auto body
      obtain hCut | hBeside := hStart.smaller
      · exact .inl hCut
      · have hRun : (Machine.start a p.auto p.limits body).run.Beside Limits.Within
            (Machine.start b p.auto q.limits body).run := by
          unfold Machine.run
          rw [← hStart.weight]
          exact hBeside _
        exact .inr ⟨hBeside, ih hRun.toProcess⟩

/-- A program that is given more room keeps what it did with less, up to where it had
run out. -/
theorem Resized.keeps (h : p.Resized Limits.Within q) : p.Keeps q :=
  h.keepsFrom ⟨h.registry, rfl, h.configs⟩

end Program

/-! ## Nodes that are kept for later -/

/-- Contents for the nodes that the stacks of a context keep. -/
structure KeptNodes where
  regions : List Region
  dispatch : List Dispatch
  guards : List ScopeMark
  frames : List Frame
  records : List Record

/-- The same context with other nodes kept for later. -/
def Context.restock (context : Context) (nodes : KeptNodes) : Context :=
  { context with
    regions := { context.regions with spare := nodes.regions }
    dispatch := { context.dispatch with spare := nodes.dispatch }
    guards := { context.guards with spare := nodes.guards }
    frames := { context.frames with spare := nodes.frames }
    records := { context.records with spare := nodes.records } }

private theorem Context.Sized.restock {context : Context} {limits : Limits}
    (h : context.Sized limits) (nodes : KeptNodes) :
    context.Beside limits limits (context.restock nodes) where
  left := h
  right :=
    { regions := ⟨h.regions.name, h.regions.limit, h.regions.within⟩
      dispatch := ⟨h.dispatch.name, h.dispatch.limit, h.dispatch.within⟩
      guards := ⟨h.guards.name, h.guards.limit, h.guards.within⟩
      frames := ⟨h.frames.name, h.frames.limit, h.frames.within⟩
      records := ⟨h.records.name, h.records.limit, h.records.within⟩ }
  same := rfl

/-- The same thread with other nodes kept for later. -/
def Machine.restock (m : Machine ν) (nodes : KeptNodes) : Machine ν :=
  m.refit m.config (m.context.map (·.restock nodes))

private theorem Process.beside_refl (process : Process) :
    process.Beside Eq process where
  registry := rfl
  printed := rfl
  configs := by
    cases process.config with
    | none => exact .none
    | some config => exact .some (Machine.Beside.config_refl config)

namespace Machine

variable {m : Machine ν}

/-- A thread from its start on: its stacks have their names and capacities, and no more
entries than these allow. -/
theorem beside_self (process : Process) (auto : Bool) (limits : Option Limits)
    (body : List (Stmt ν)) (count : Nat) :
    (steps count (Machine.start process auto limits body)).Beside Eq
    (steps count (Machine.start process auto limits body)) :=
  (beside_start process.beside_refl (fun _ _ => congrArg limits.getD)
    auto body).equal_steps count

/-- A machine that is beside itself keeps to the capacities that its context was opened
with. -/
theorem Beside.sized (h : m.Beside Eq m) {context : Context}
    (hContext : m.context = some context) :
    ∃ limits, context.Sized limits := by
  obtain ⟨hNone, -⟩ | ⟨few, many, a, b, -, hBeside, hSome, -⟩ := h.context_cases
  · cases hNone.symm.trans hContext
  · cases hSome.symm.trans hContext
    exact ⟨few, hBeside.left⟩

end Machine

/-- Nodes that are kept for later may hold anything: nobody can tell. -/
theorem Machine.Beside.restock {m : Machine ν} (h : m.Beside Eq m) (nodes : KeptNodes) :
    m.Beside Eq (m.restock nodes) := by
  refine .refit ?_ ?_
  · exact h.configs
  · cases hContext : m.context with
    | none => exact .none
    | some context =>
        obtain ⟨limits, hSized⟩ := h.sized hContext
        exact .some ⟨limits, limits, rfl, hSized.restock nodes⟩

end Unwinding
