import Unwinding.Proofs.Escapes
import Unwinding.Proofs.Heights
import Unwinding.Proofs.Plain
import Unwinding.Proofs.Travels

/-!
# A machine, read as plain code

What plain code shares can be read off a machine (`Machine.reading`): its variables with
the bookkeeping of their exceptions stripped off, the sites of the frames, the handles
of the blocks that wait, and the escape that waits for the innermost body. A step
changes these as the plain code does that it stands for.

## Main results

* `path_step` — what a step does to the calls in progress.
* `pend_step` — what it does to the escapes that the bodies around have to report.
* `find?_blocksOf`, `take?_blocksOf`, `blocksOf_put` — names stand for the same handles.
-/

namespace Unwinding

open Context

variable {ν : Type}

/-! ## What is seen -/

/-- Of a view of an exception, what was raised and the name of its kind. -/
def ExceptionView.shown (view : ExceptionView) : Raised × String :=
  (view.exception.raised, view.name)

/-- What a program shows with an event; notices are no part of it. -/
def Event.sighting? : Event ν → Option (Sighting ν)
  | .notice _ => none
  | .terminated _ => none
  | .after word _ => some (.after word)
  | .depths _ => some .asked
  | .state _ => some .asked
  | .trace _ => some .asked
  | .current _ => some .asked
  | .annotated _ => some .asked
  | .inspected _ => some .asked
  | .shutdown _ => some .asked
  | .say text => some (.say text)
  | .nothingToRethrow => some .nothingToRethrow
  | .exception view => some (.exception (view.map ExceptionView.shown))
  | .exceptionIsA answer => some (.exceptionIsA answer)
  | .caught view clause => some (.caught view.exception.raised view.name clause)
  | .result value => some (.result value)
  | .fulfilled value => some (.fulfilled value)
  | .unmatched view => some (.unmatched view.exception.raised view.name)
  | .completed value => some (.completed value)
  | .unwound payload => some (.unwound payload)
  | .openFailed error => some (.openFailed error)
  | .registered length => some (.registered length)
  | .configured outcome => some (.configured outcome)
  | .declared outcome => some (.declared outcome)
  | .isA answer => some (.isA answer)
  | .kinds rows => some (.kinds rows)

namespace Machine

/-- What a program has shown, newest first. -/
def sights (m : Machine ν) : List (Sighting ν) :=
  m.events.filterMap Event.sighting?

/-- Notices show nothing. -/
theorem sights_notices (notices : List Notice) :
    (notices.map Event.notice : List (Event ν)).filterMap Event.sighting? = [] := by
  rw [List.filterMap_eq_nil_iff]
  intro event hMem
  obtain ⟨notice, -, rfl⟩ := List.mem_map.1 hMem
  rfl

/-- A context that is put back changes nothing that has been seen. -/
theorem sights_store (m : Machine ν) (context : Context) :
    (m.store context).sights = m.sights := by
  rw [sights, store, List.filterMap_append, sights_notices]
  rfl

/-- Nor does the context of a thread when it is closed. -/
theorem sights_closeThread (m : Machine ν) : m.closeThread.2.sights = m.sights := by
  unfold closeThread
  split
  · rfl
  · split
    · rfl
    · dsimp only
      split <;> rfl

/-- Nor does the handle of a thread that is dropped. -/
theorem sights_dropThread (m : Machine ν) : m.dropThread.sights = m.sights := by
  unfold dropThread
  split
  · split <;> rfl
  · have hSame := m.sights_closeThread
    split
    · next hCloses =>
        rw [hCloses] at hSame
        exact hSame
    · next hCloses =>
        rw [hCloses] at hSame
        exact hSame

/-- Notices are told one after the other. -/
theorem foldl_note_eq (notices : List Notice) (m : Machine ν) :
    notices.foldl note m =
      { m with events := notices.reverse.map Event.notice ++ m.events } := by
  induction notices generalizing m with
  | nil => rfl
  | cons notice rest ih =>
      rw [List.foldl_cons, ih, List.reverse_cons, List.map_append, List.append_assoc]
      rfl

end Machine

/-! ## Handles -/

/-- What a handle stands for in plain code. -/
def Handle.held : Handle ν → Held ν
  | .thread => .thread
  | .region visit _ => .region visit.site
  | .call _ _ => .call
  | .guards scope => .guards scope.bodies

/-- The handles of a block. -/
def heldBy (handles : List (String × Handle ν)) : List (String × Held ν) :=
  handles.map fun (name, handle) => (name, handle.held)

/-- The handles of a block, if a block waits here. -/
def Resumption.held? : Resumption ν → Option (List (String × Held ν))
  | .block _ _ handles _ => some (heldBy handles)
  | _ => none

/-- The handles of the blocks that wait, the innermost block first. -/
def blocksOf (control : List (Resumption ν)) : List (List (String × Held ν)) :=
  control.filterMap Resumption.held?

section

variable {name : String} {handle : Handle ν} {handles : List (String × Handle ν)}
    {control : List (Resumption ν)}

/-- A block has as many things at hand in plain code as it has handles. -/
theorem length_heldBy (handles : List (String × Handle ν)) :
    (heldBy handles).length = handles.length :=
  List.length_map _

private theorem lookup_heldBy (name : String) (handles : List (String × Handle ν)) :
    (heldBy handles).lookup name = (handles.lookup name).map Handle.held := by
  induction handles with
  | nil => rfl
  | cons entry older ih =>
      obtain ⟨other, handle⟩ := entry
      simp only [heldBy, List.map_cons, List.lookup_cons]
      cases name == other with
      | true => rfl
      | false => exact ih

private theorem split?_heldBy (name : String) (handles : List (String × Handle ν)) :
    (Handle.split? name handles).map
    (fun (handle, rest) => (handle.held, heldBy rest)) =
      ((heldBy handles).lookup name).map fun held =>
        (held, (heldBy handles).eraseP fun (other, _) => other = name) := by
  induction handles with
  | nil => rfl
  | cons entry older ih =>
      obtain ⟨other, handle⟩ := entry
      by_cases hName : other = name
      · subst hName
        simp [Handle.split?, heldBy]
      · have hBeq : (name == other) = false := by simpa using Ne.symm hName
        have hIh := ih
        simp only [Handle.split?, if_neg hName, Option.map_map, heldBy, List.map_cons,
          List.lookup_cons, hBeq] at hIh ⊢
        rw [List.eraseP_cons_of_neg (by simpa using hName)]
        cases hSplit : Handle.split? name older with
        | none =>
            rw [hSplit] at hIh
            rw [Option.map_none] at hIh ⊢
            rw [Option.map_eq_none_iff.1 hIh.symm]
            rfl
        | some found =>
            obtain ⟨taken, rest⟩ := found
            rw [hSplit, Option.map_some] at hIh
            obtain ⟨held, hLookup, hFound⟩ := Option.map_eq_some_iff.1 hIh.symm
            obtain ⟨rfl, hRest⟩ := Prod.mk.inj hFound
            rw [hLookup, Option.map_some, Option.map_some, hRest]
            rfl

/-- Names stand for the same handles. -/
theorem find?_blocksOf (name : String) (control : List (Resumption ν)) :
    Held.find? name (blocksOf control) =
      (Handle.find? name control).map Handle.held := by
  induction control with
  | nil => rfl
  | cons waiting below ih =>
      cases waiting with
      | block word rest handles value =>
          change ((heldBy handles).lookup name).or (Held.find? name (blocksOf below)) =
            _
          rw [lookup_heldBy, ih, Handle.find?]
          cases handles.lookup name <;> rfl
      | _ => exact ih

/-- A handle is found and taken in the same block on both sides. -/
theorem take?_blocksOf (name : String) (control : List (Resumption ν)) :
    Held.take? name (blocksOf control) =
      (Handle.take? name control).map fun (handle, control) =>
        (handle.held, blocksOf control) := by
  induction control with
  | nil => rfl
  | cons waiting below ih =>
      cases waiting with
      | block word rest handles value =>
          have hSplit := split?_heldBy name handles
          rw [show blocksOf (.block word rest handles value :: below) =
            heldBy handles :: blocksOf below from rfl, Held.take?, Handle.take?]
          cases hFound : Handle.split? name handles with
          | some found =>
              obtain ⟨handle, left⟩ := found
              rw [hFound] at hSplit
              obtain ⟨held, hLookup, hHeld⟩ := Option.map_eq_some_iff.1 hSplit.symm
              obtain ⟨rfl, hLeft⟩ := Prod.mk.inj hHeld
              rw [hLookup]
              dsimp only
              rw [hLeft]
              rfl
          | none =>
              rw [hFound] at hSplit
              rw [Option.map_eq_none_iff.1 hSplit.symm]
              dsimp only
              rw [ih]
              cases Handle.take? name below <;> rfl
      | _ =>
          change Held.take? name (blocksOf below) =
            ((Handle.take? name below).map _).map _
          rw [ih, Option.map_map]
          rfl

private theorem heldBy_replace (name : String) (handle : Handle ν)
    (handles : List (String × Handle ν)) :
    heldBy (Handle.replace name handle handles) =
      (heldBy handles).replaceF fun (other, _) => if other = name then
        some (other, handle.held) else none := by
  induction handles with
  | nil => rfl
  | cons entry older ih =>
      obtain ⟨other, old⟩ := entry
      by_cases hName : other = name
      · simp [Handle.replace, heldBy, hName]
      · have hIh := ih
        simp only [heldBy] at hIh
        simp [Handle.replace, heldBy, hName, hIh]

/-- It is replaced in the same block as well. -/
theorem blocksOf_put (name : String) (handle : Handle ν)
    (control : List (Resumption ν)) :
    blocksOf (Handle.put name handle control) =
      Held.put name handle.held (blocksOf control) := by
  induction control with
  | nil => rfl
  | cons waiting below ih =>
      cases waiting with
      | block word rest handles value =>
          change _ = if ((heldBy handles).lookup name).isSome then _ else
            heldBy handles :: Held.put name handle.held (blocksOf below)
          rw [lookup_heldBy, Option.isSome_map]
          unfold Handle.put
          split
          · exact congrArg (List.cons · _) (heldBy_replace name handle handles)
          · exact congrArg (List.cons _) ih
      | _ => exact ih

end

/-! ## The calls in progress -/

namespace Machine

/-- The sites of the frames, innermost first. -/
def path (m : Machine ν) : List Site :=
  (m.entries?.getD .empty).frames.map Frame.site

/-- The calls in progress are the sites of the frames. -/
theorem path_of_entries {m : Machine ν} {entries : Entries}
    (h : m.entries? = some entries) :
    m.path = entries.frames.map Frame.site := by
  rw [path, h]
  rfl

end Machine

/-- What a deed does to the calls in progress, if it enters no traced call. -/
def Deed.walks (path : List Site) : Deed → List Site
  | .opens => []
  | .closes => []
  | .enters visit => visit.site :: path
  | .leaves _ _ _ => path.tail
  | .abandons _ => path.tail
  | .leavesCall _ => path.tail
  | _ => path

section

variable {ledger : List Extent} {before after : Entries} {deed : Deed} {scopes : Nat}

/-- What is cut off down to a depth that the innermost extent remembers is its own
frame. -/
theorem Aligned.below_eq_tail {extent : Extent} {rest : List Extent} {entry : Depths}
    {above below : List Frame} (h : Aligned before scopes (extent :: rest))
    (hEntry : extent.entry? = some entry) (hSplit : before.frames = above ++ below)
    (hCount : below.length = entry.frames) : before.frames.tail = below := by
  have hRest : entry.frames = (heights rest).frames :=
    congrArg Heights.frames (h.recalled.1 entry hEntry)
  have hFrames : before.frames.length = (heights rest).frames + 1 := by
    rw [h.frames]
    cases extent <;> first | rfl | cases hEntry
  rw [hSplit, List.length_append] at hFrames
  obtain ⟨frame, rfl⟩ := List.length_eq_one_iff.1 (show above.length = 1 by omega)
  rw [hSplit]
  rfl

private theorem Deed.Turns.path (h : deed.Turns before after)
    (hAligned : Aligned before scopes ledger) (hFits : deed.Fits ledger)
    (hNotCall : ∀ entry, deed ≠ .entersCall entry) :
    after.frames.map Frame.site = deed.walks (before.frames.map Frame.site) := by
  cases h with
  | quiet isQuiet => cases deed <;> first | rfl | exact isQuiet.elim
  | annotates =>
      change (before.frames.modifyHead _).map Frame.site = _
      cases before.frames <;> rfl
  | enters number measured => rfl
  | leaves isFramed count => exact List.map_tail
  | abandons isFramed count =>
      obtain ⟨rest, rfl⟩ := List.head?_eq_some_iff.1 hFits
      rw [Deed.walks, ← List.map_tail, hAligned.below_eq_tail rfl isFramed count]
      rfl
  | leavesCall isFramed count =>
      obtain ⟨rest, rfl⟩ := List.head?_eq_some_iff.1 hFits
      rw [Deed.walks, ← List.map_tail, hAligned.below_eq_tail rfl isFramed count]
  | entersCall measured => exact absurd rfl (hNotCall _)
  | _ => rfl

end

section

variable {m : Machine ν} {ledger : List Extent}

/-- What a step does to the calls in progress. -/
theorem path_step (h : Upright m ledger) (hTurn : m.InTurn ledger)
    (hGoesOn : m.step.poisoned = false)
    (hNotCall : ∀ entry, m.deed ≠ .entersCall entry) :
    m.step.path = m.deed.walks m.path := by
  have hFits := h.stands.fits hTurn
  have hActs := (Machine.did_step h.stands.clear hGoesOn).acts
  generalize hBefore : m.entries? = before at hActs
  generalize hAfter : m.step.entries? = after at hActs
  generalize m.deed = deed at hActs hFits hNotCall
  cases hActs with
  | turns hTurns =>
      obtain ⟨context, hContext, rfl⟩ := Machine.exists_of_entries? hBefore
      rw [Machine.path_of_entries hAfter, Machine.path_of_entries hBefore]
      exact hTurns.path (h.aligned context hContext) hFits hNotCall
  | quiet isQuiet =>
      rw [Machine.path, Machine.path, hAfter, hBefore]
      cases deed <;> first | rfl | exact isQuiet.elim
  | opens =>
      rw [Machine.path, hAfter]
      rfl
  | closes =>
      rw [Machine.path, hAfter]
      rfl

end

/-! ## Bodies that wait -/

/-- The region whose body is at a stage. -/
def Stage.body? (stage : Stage) : Option Nat :=
  match stage.position with
  | .body => some stage.visit.id
  | _ => none

/-- The regions whose bodies wait, innermost first. -/
def bodies (control : List (Resumption ν)) : List Nat :=
  (stagesOf control).filterMap Stage.body?

section

variable {ledger : List Extent} {stages : List Stage}

/-- The regions whose bodies wait are open, in that order. -/
theorem Staged.bodies_sublist (h : Staged stages ledger) :
    (stages.filterMap Stage.body?).Sublist (owners ledger) := by
  have hOwners : owners ledger = (ledger.filterMap Extent.phase?).map
      fun region => region.1.id := by
    rw [owners, List.map_filterMap]
    refine List.filterMap_congr fun extent _ => ?_
    cases extent <;> rfl
  rw [hOwners]
  unfold Staged at h
  generalize ledger.filterMap Extent.phase? = regions at h
  induction h with
  | nil => exact List.Sublist.refl _
  | @cons stage region stages regions hTop _ ih =>
      obtain ⟨visit, position⟩ := stage
      obtain ⟨rfl, -⟩ := hTop
      cases position with
      | body => exact ih.cons_cons _
      | _ => exact ih.cons _

/-- The region that reports is the innermost one whose body waits, unless one is about
to be left. -/
theorem Staged.reporting (h : Staged stages ledger)
    (hStays : ∀ stage ∈ stages, stage.position ≠ .returned) :
    reporting? ledger = (stages.filterMap Stage.body?).head? := by
  induction ledger generalizing stages with
  | nil =>
      cases h
      rfl
  | cons extent rest ih =>
      cases extent with
      | protecting visit phase =>
          cases h with
          | @cons stage _ stages _ hTop hRest =>
              obtain ⟨_, position⟩ := stage
              obtain ⟨rfl, hFits⟩ := hTop
              have hStay := hStays _ List.mem_cons_self
              have hIh :=
                ih hRest fun stage hMem => hStays stage (List.mem_cons_of_mem _ hMem)
              cases phase <;> cases position <;>
                first | exact hFits.elim | exact absurd rfl hStay | rfl | exact hIh
      | _ => exact ih h hStays

private theorem position_of_stagesOf {control : List (Resumption ν)} {stage : Stage}
    (h : stage ∈ stagesOf control) :
    stage.position ≠ .returned := by
  obtain ⟨waiting, -, hStage⟩ := List.mem_filterMap.1 h
  cases waiting <;> cases hStage <;> exact fun hReturned => nomatch hReturned

end

section

variable {m : Machine ν} {ledger : List Extent}

/-- The regions whose bodies wait are open. -/
theorem Lively.bodies_sublist (h : Lively m ledger) :
    (bodies m.control).Sublist (owners ledger) :=
  ((List.sublist_append_right _ _).filterMap _).trans h.staged.bodies_sublist

/-- No region waits for its body twice. -/
theorem Lively.bodies_nodup (h : Lively m ledger) : (bodies m.control).Nodup :=
  h.bodies_sublist.nodup h.owners_nodup

/-- The region that has to report what is abandoned now is the innermost one that waits
for its body. -/
theorem Lively.reporting (h : Lively m ledger) (hFocus : m.focus.stage? = none) :
    reporting? ledger = (bodies m.control).head? := by
  have hStages : m.stages = stagesOf m.control := by
    rw [Machine.stages, hFocus]
    rfl
  have hStaged := h.staged
  rw [hStages] at hStaged
  exact hStaged.reporting fun _ => position_of_stagesOf

/-! ## Escapes that wait -/

/-- What a region has to report. -/
def Machine.pend (m : Machine ν) (id : Nat) : Option Site :=
  m.context.bind fun context => due id context.escapes

/-- What a region has to report is what the escapes of the context say it has. -/
theorem Machine.pend_of_context {context : Context} (h : m.context = some context)
    (id : Nat) :
    m.pend id = due id context.escapes := by
  rw [pend, h]
  rfl

/-- What an open region has to report after a step. -/
theorem pend_step {id : Nat} (h : Settled m ledger)
    (hAccountable : m.Accountable ledger) (hGoesOn : m.step.poisoned = false)
    (hOpen : id ∈ owners (m.move.apply ledger)) :
    m.step.pend id = (m.news? id ledger).toList.foldl News.owed (m.pend id) := by
  have hThen := h.step hAccountable hGoesOn
  cases hAfter : m.step.context with
  | none =>
      rw [hThen.lively.stands.closed hAfter] at hOpen
      cases hOpen
  | some after =>
      cases hBefore : m.context with
      | some before =>
          rw [Machine.pend_of_context hAfter, Machine.pend_of_context hBefore]
          exact due_step h hAccountable hGoesOn hOpen hBefore hAfter
      | none =>
          have hDid := Machine.did_step h.lively.stands.clear hGoesOn
          have hOpens :=
            (Deed.Acts.of_some (Machine.entries?_some hAfter ▸ hDid.acts)).2
            (by rw [Machine.entries?, hBefore]; rfl)
          rw [hDid.move, hOpens, h.lively.stands.closed hBefore] at hOpen
          cases hOpen

end

/-! ## The reading -/

/-- What a machine shares with the plain code that it stands for. -/
def Machine.reading (m : Machine ν) : Store ν where
  registry := m.registry
  config := m.config
  opened := m.context.isSome
  writing := m.inUse
  bindings := m.bindings.map fun (name, exception) => (name, exception.raised)
  path := m.path
  escape := (bodies m.control).head?.bind m.pend
  blocks := blocksOf m.control
  log := m.sights

end Unwinding
