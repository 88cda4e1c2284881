import Unwinding.Machine.Run

/-!
# Every run stops

Each step of a machine that has not stopped uses up some of its weight, so the number of
steps that a run is given is always enough.

The proof never looks at what a step does to the context. It only needs to know that
`perform` leaves the waiting code alone and, if the step fails, leaves nothing heavier
than an unwinding behind; all else is an account of which code waits before and after.

## Main results

* `weight_step_lt` — a step of a machine that has not stopped makes it lighter.
* `run_isStopped` — the run of a machine ends in a stop.
-/

namespace Unwinding.Machine

variable {ν : Type}

/-! ## What leaves the waiting code alone -/

@[simp] theorem control_emit (m : Machine ν) (event : Event ν) :
    (m.emit event).control = m.control := rfl

@[simp] theorem control_note (m : Machine ν) (notice : Notice) :
    (m.note notice).control = m.control := rfl

@[simp] theorem control_goto (m : Machine ν) (focus : Focus ν) :
    (m.goto focus).control = m.control := rfl

@[simp] theorem focus_goto (m : Machine ν) (focus : Focus ν) :
    (m.goto focus).focus = focus := rfl

@[simp] theorem control_push (m : Machine ν) (waiting : Resumption ν) :
    (m.push waiting).control = waiting :: m.control := rfl

@[simp] theorem control_answer (m : Machine ν) (event : Event ν) :
    (m.answer event).control = m.control := rfl

@[simp] theorem focus_answer (m : Machine ν) (event : Event ν) :
    (m.answer event).focus = .complete none := rfl

@[simp] theorem control_assign (m : Machine ν) (name : String) (exception : Exception) :
    (m.assign name exception).control = m.control := rfl

@[simp] theorem control_unwind (m : Machine ν) (payload : Payload) :
    (m.unwind payload).control = m.control := rfl

@[simp] theorem focus_unwind (m : Machine ν) (payload : Payload) :
    (m.unwind payload).focus = .unwind payload := rfl

@[simp] theorem control_caught (m : Machine ν) : m.caught.control = m.control := rfl

@[simp] theorem control_store (m : Machine ν) (context : Context) :
    (m.store context).control = m.control := rfl

@[simp] theorem control_enterBlock (m : Machine ν) (body : List (Stmt ν)) :
    (m.enterBlock body).control = .block "" body [] none :: m.control := rfl

@[simp] theorem focus_enterBlock (m : Machine ν) (body : List (Stmt ν)) :
    (m.enterBlock body).focus = .next := rfl

/-- To ask for the configuration leaves the waiting code alone, though it may install
one. -/
theorem control_installed (m : Machine ν) : m.installed.2.control = m.control := by
  unfold installed
  split <;> rfl

/-- So does opening a context. -/
theorem control_openThread (m : Machine ν) (limits : Option Limits) :
    (m.openThread limits).2.control = m.control := by
  have h := control_installed m
  unfold openThread
  cases hi : m.installed with
  | mk config next =>
      rw [hi] at h
      dsimp only
      split
      · exact h
      · split <;> exact h

/-- So does closing it. -/
theorem control_closeThread (m : Machine ν) : m.closeThread.2.control = m.control := by
  unfold closeThread
  repeat' split
  all_goals rfl

/-- And so does dropping its handle. -/
theorem control_dropThread (m : Machine ν) : m.dropThread.control = m.control := by
  unfold dropThread
  split
  · split <;> rfl
  · have h := control_closeThread m
    split
    · next heq => simpa [heq] using h
    · next heq => simpa [heq] using h

/-- Any number of notices leave the waiting code alone. -/
theorem control_foldl_note (notices : List Notice) (m : Machine ν) :
    (notices.foldl note m).control = m.control := by
  induction notices generalizing m with
  | nil => rfl
  | cons notice rest ih => simp [ih]

/-! ## Terminations are light -/

/-- A machine that is about to unwind, or has stopped, with the same code waiting as
before. -/
def IsLight (before after : Machine ν) : Prop :=
  after.control = before.control ∧ focusWeight after.focus ≤ 1

/-- A termination is light, however the process is configured: the thread begins to
unwind, or stops. -/
theorem isLight_terminate (m : Machine ν) (termination : Termination) :
    IsLight m (m.terminate termination) := by
  have h := control_installed { m with poisoned := true }
  unfold terminate
  cases hi : { m with poisoned := true }.installed with
  | mk config next =>
      rw [hi] at h
      dsimp only
      cases config.terminator <;> simp only [IsLight]
      · split <;> exact ⟨h, by simp [focusWeight]⟩
      · exact ⟨h, by simp [focusWeight]⟩
      · exact ⟨h, by simp [exit, focusWeight]⟩
      · exact ⟨h, by simp [exit, focusWeight]⟩

/-- So is a termination because the bookkeeping failed. -/
theorem isLight_fatal (m : Machine ν) (error : Error) (dump : Option String) :
    IsLight m (m.fatal error dump) :=
  isLight_terminate (m.note (.fatal error)) _

/-- So is a termination because nothing catches an exception. -/
theorem isLight_uncaught (m : Machine ν) (exception : Exception) :
    IsLight m (m.uncaught exception) :=
  isLight_terminate (m.note _) _

/-- What is light weighs less than whatever has an unwinding and the waiting code to
spare. -/
theorem IsLight.weight_lt {before after : Machine ν} (h : IsLight before after)
    {bound : Nat} (hBound : controlWeight before.control + 1 < bound) :
    after.weight < bound := by
  unfold weight
  rw [h.1]
  have := h.2
  omega

/-! ## Steps on the context -/

/-- A step on the context leaves the waiting code alone, so the weight afterwards is
that of what comes next, or that of a termination. -/
theorem weight_perform_lt {α : Type} {m : Machine ν} {op : Step α}
    {next : Machine ν → α → Machine ν} {bound : Nat}
    (hBound : controlWeight m.control + 1 < bound)
    (hNext : ∀ after answer, after.control = m.control →
      (next after answer).weight < bound) :
    (m.perform op next).weight < bound := by
  unfold perform
  split
  · exact (isLight_fatal m _ _).weight_lt hBound
  · split
    · exact (isLight_fatal m _ _).weight_lt hBound
    · split
      · exact hNext _ _ rfl
      · exact (isLight_fatal (m.store _) _ _).weight_lt hBound

/-! ## The weights of handles -/

/-- A scope takes a few steps even if it has no bodies, because its mark goes. -/
theorem three_le_scopeWeight (bodies : List (Flavor × List (Stmt ν))) :
    3 ≤ scopeWeight bodies := by
  induction bodies with
  | nil => simp [scopeWeight]
  | cons first rest ih =>
      simp only [scopeWeight]
      omega

/-- So does any handle. -/
theorem handleWeight_pos (handle : Handle ν) : 3 ≤ handleWeight handle := by
  cases handle with
  | guards scope =>
      have := three_le_scopeWeight scope.bodies
      simp only [handleWeight]
      omega
  | _ => simp [handleWeight]

/-- The weight of a scope in which nothing is registered. -/
theorem handleWeight_empty (site : Site) (inUnwinding : Bool) :
    handleWeight (.guards (.empty site inUnwinding) : Handle ν) = 4 := rfl

/-- A body that is registered makes its scope as much heavier as it takes to run the
body once. This is what pays for the body when the scope is left. -/
theorem handleWeight_register (scope : Scope ν) (mark : Nat) (flavor : Flavor)
    (body : List (Stmt ν)) :
    handleWeight (.guards (scope.register mark flavor body)) =
      Stmt.weights body + 6 + handleWeight (.guards scope) := rfl

/-- A handle that is taken out of a block takes its weight with it. -/
theorem handlesWeight_split? {name : String} {handles rest : List (String × Handle ν)}
    {handle : Handle ν} (h : Handle.split? name handles = some (handle, rest)) :
    handlesWeight handles = handleWeight handle + 1 + handlesWeight rest := by
  induction handles generalizing rest with
  | nil => simp [Handle.split?] at h
  | cons first older ih =>
      obtain ⟨other, held⟩ := first
      simp only [Handle.split?] at h
      split at h
      · simp only [Option.some.injEq, Prod.mk.injEq] at h
        obtain ⟨rfl, rfl⟩ := h
        rfl
      · obtain ⟨⟨found, kept⟩, hFound, hEq⟩ := Option.map_eq_some_iff.1 h
        simp only [Prod.mk.injEq] at hEq
        obtain ⟨rfl, rfl⟩ := hEq
        have := ih hFound
        simp only [handlesWeight]
        omega

/-- A handle that is taken out of the waiting code takes its weight with it. -/
theorem controlWeight_take? {name : String} {control rest : List (Resumption ν)}
    {handle : Handle ν} (h : Handle.take? name control = some (handle, rest)) :
    controlWeight control = handleWeight handle + 1 + controlWeight rest := by
  induction control generalizing rest with
  | nil => simp [Handle.take?] at h
  | cons waiting below ih =>
      have hBelow : ∀ (w : Resumption ν),
          (Handle.take? name below).map (fun x => (x.1, w :: x.2)) =
            some (handle, rest) →
            controlWeight (w :: below) = handleWeight handle + 1 +
              controlWeight rest := by
        intro w hw
        obtain ⟨⟨found, kept⟩, hFound, hEq⟩ := Option.map_eq_some_iff.1 hw
        simp only [Prod.mk.injEq] at hEq
        obtain ⟨rfl, rfl⟩ := hEq
        have := ih hFound
        simp only [controlWeight]
        omega
      cases waiting with
      | block word stmts handles value =>
          simp only [Handle.take?] at h
          split at h
          · next hSplit =>
              simp only [Option.some.injEq, Prod.mk.injEq] at h
              obtain ⟨rfl, rfl⟩ := h
              have := handlesWeight_split? hSplit
              simp only [controlWeight, waitingWeight]
              omega
          · exact hBelow _ h
      | _ => exact hBelow _ h

/-- A handle that takes the place of another in its block changes the weight by the
difference of theirs. -/
theorem handlesWeight_replace {name : String} {handles : List (String × Handle ν)}
    {old : Handle ν} (new : Handle ν) (h : handles.lookup name = some old) :
    handlesWeight (Handle.replace name new handles) + handleWeight old =
      handlesWeight handles + handleWeight new := by
  induction handles with
  | nil => simp at h
  | cons first older ih =>
      obtain ⟨other, held⟩ := first
      by_cases hName : other = name
      · subst hName
        simp only [List.lookup_cons_self, Option.some.injEq] at h
        subst h
        simp only [Handle.replace, if_true, handlesWeight]
        omega
      · have hne : (name == other) = false := by simpa using fun h => hName h.symm
        simp only [List.lookup_cons, hne] at h
        have := ih h
        simp only [Handle.replace, if_neg hName, handlesWeight]
        omega

/-- The same, for the waiting code that the handle is somewhere in. -/
theorem controlWeight_put {name : String} {control : List (Resumption ν)}
    {old : Handle ν} (new : Handle ν) (h : Handle.find? name control = some old) :
    controlWeight (Handle.put name new control) + handleWeight old =
      controlWeight control + handleWeight new := by
  induction control with
  | nil => simp [Handle.find?] at h
  | cons waiting below ih =>
      cases waiting with
      | block word stmts handles value =>
          simp only [Handle.find?] at h
          cases hLookup : handles.lookup name with
          | some found =>
              simp only [hLookup, Option.some_or, Option.some.injEq] at h
              subst h
              have := handlesWeight_replace new hLookup
              simp only [Handle.put, hLookup, Option.isSome_some, if_true,
                controlWeight, waitingWeight]
              omega
          | none =>
              simp only [hLookup, Option.none_or] at h
              have := ih h
              simp only [Handle.put, hLookup, Option.isSome_none, controlWeight,
                waitingWeight]
              simp only [Bool.false_eq_true, if_false, controlWeight, waitingWeight]
              omega
      | _ =>
          have := ih h
          simp only [Handle.put, controlWeight]
          omega

/-- A handle that the innermost block comes to own adds no more than its own weight and
one step. -/
theorem controlWeight_own_le (m : Machine ν) (name : String) (handle : Handle ν) :
    controlWeight (m.own name handle).control ≤ handleWeight handle + 1 +
      controlWeight m.control := by
  unfold own
  split
  · next hControl =>
      rw [hControl]
      simp only [controlWeight, waitingWeight, handlesWeight]
      omega
  · omega

/-! ## Each kind of step -/

/-- To acquire something costs no more than what comes next, with a handle of five steps
more to drop. -/
theorem weight_acquire_lt {m : Machine ν} {name : String} {opening : Opening}
    {next : Machine ν → Machine ν} {bound : Nat}
    (hBound : controlWeight m.control + 1 < bound)
    (hNext : ∀ after, controlWeight after.control ≤ controlWeight m.control + 5 →
      (next after).weight < bound) : (m.acquire name opening next).weight < bound := by
  cases opening with
  | thread limits =>
      have h := control_openThread m limits
      simp only [acquire]
      split
      · next after hOpen =>
          rw [hOpen] at h
          refine hNext _ ?_
          have := controlWeight_own_le after name .thread
          simp only [handleWeight] at this
          simp only at h
          rw [h] at this
          omega
      · next after hOpen =>
          rw [hOpen] at h
          refine hNext _ ?_
          simp only at h
          simp [h]
      · next after hOpen =>
          rw [hOpen] at h
          simp only at h
          simp only [weight, focus_unwind, control_unwind, focusWeight, h]
          omega
  | region site =>
      refine weight_perform_lt hBound fun after visit hControl => hNext _ ?_
      have := controlWeight_own_le after name (.region visit after.isPanicking)
      simp only [handleWeight, hControl] at this
      omega
  | call site =>
      refine weight_perform_lt hBound fun after entry hControl => hNext _ ?_
      have := controlWeight_own_le after name (.call entry after.isPanicking)
      simp only [handleWeight, hControl] at this
      omega
  | guards site =>
      refine hNext _ ?_
      have := controlWeight_own_le m name (.guards (.empty site m.isPanicking))
      rw [handleWeight_empty] at this
      omega

/-- To register a body costs what it takes to run it, and a few steps. -/
theorem weight_registerGuard_lt (m : Machine ν) (name : String) (flavor : Flavor)
    (body : List (Stmt ν)) :
    (m.registerGuard name flavor body).weight < controlWeight m.control +
      Stmt.weights body + 10 := by
  unfold registerGuard
  split
  · next scope hFind =>
      have hAdd : ∀ (after : Machine ν) (mark : Nat), after.control = m.control →
          controlWeight (Handle.put name
            (.guards (scope.register mark flavor body)) after.control) =
              controlWeight m.control + Stmt.weights body + 6 := by
        intro after mark hControl
        have := controlWeight_put (.guards (scope.register mark flavor body)) hFind
        rw [hControl]
        rw [handleWeight_register] at this
        omega
      dsimp only
      split
      · next mark hMark =>
          have := hAdd m mark rfl
          simp only [weight, focus_answer, control_answer, focusWeight]
          omega
      · refine weight_perform_lt (by omega) fun after mark hControl => ?_
        have := hAdd after mark hControl
        simp only [weight, focus_answer, control_answer, focusWeight]
        omega
  · simp only [weight, focus_goto, control_goto, focusWeight]
    omega

/-- A scope that is left looks at one body after another, or gives up its mark. -/
theorem weight_leaveScope_lt (m : Machine ν) (scope : Leaving ν) :
    (m.leaveScope scope).weight < scopeWeight scope.bodies +
      controlWeight m.control := by
  unfold leaveScope
  split
  · next hBodies =>
      rw [hBodies]
      refine weight_perform_lt (by simp only [scopeWeight]; omega)
        fun after _ hControl => ?_
      simp only [weight, focus_goto, control_goto, focusWeight, hControl, scopeWeight]
      omega
  · next flavor body bodies hBodies =>
      rw [hBodies]
      simp only [scopeWeight]
      split
      · refine weight_perform_lt (by omega) fun after _ hControl => ?_
        simp only [weight, focus_enterBlock, control_enterBlock, control_push,
          focusWeight, controlWeight, waitingWeight, handlesWeight, hControl]
        omega
      · simp only [weight, focus_goto, control_goto, focusWeight]
        omega

/-- To drop a handle uses up its weight. -/
theorem weight_drop_lt (m : Machine ν) (handle : Handle ν) :
    (m.drop handle).weight < handleWeight handle + controlWeight m.control := by
  cases handle with
  | thread =>
      simp only [drop, weight, focus_goto, control_goto, control_dropThread,
        focusWeight, handleWeight]
      omega
  | region visit inUnwinding =>
      simp only [drop, handleWeight]
      split
      · simp only [weight, focus_goto, control_goto, focusWeight]
        omega
      · split
        all_goals
          refine weight_perform_lt (by omega) fun after _ hControl => ?_
          simp only [weight, focus_goto, control_goto, focusWeight, hControl]
          omega
  | call entry inUnwinding =>
      simp only [drop, handleWeight]
      split
      · simp only [weight, focus_goto, control_goto, focusWeight]
        omega
      · refine weight_perform_lt (by omega) fun after _ hControl => ?_
        simp only [weight, focus_goto, control_goto, focusWeight, hControl]
        omega
  | guards scope =>
      have hPos := handleWeight_pos (.guards scope)
      simp only [drop]
      simp only [handleWeight] at hPos ⊢
      split
      · simp only [weight, focus_goto, control_goto, focusWeight]
        omega
      · split
        all_goals
          simp only [weight, focus_goto, control_goto, focusWeight]
          omega

/-- So does giving one up, by whatever means. Its weight was counted where it was held,
so the statement itself is paid with a few steps. -/
theorem weight_release_lt (m : Machine ν) (name : String) (how : Closing) :
    (m.release name how).weight < controlWeight m.control + 4 := by
  unfold release
  split
  · simp only [weight, focus_goto, control_goto, focusWeight]
    omega
  · next handle control hTake =>
      have hWeight := controlWeight_take? hTake
      have hPos := handleWeight_pos handle
      dsimp only
      split
      · simp only [weight, focus_goto, control_goto, focusWeight]
        omega
      · refine weight_perform_lt (by dsimp only; omega) fun after _ hControl => ?_
        simp only [weight, focus_goto, control_goto, focusWeight, hControl]
        omega
      · simp only [weight, focus_answer, control_answer, control_closeThread,
          focusWeight]
        omega
      · simp only [weight, focus_goto, control_goto, control_push, focusWeight,
          controlWeight, waitingWeight]
        omega

/-- The weight of the handler of a clause is part of the weight of the clauses. -/
theorem handlerWeight_le {clause : Clause ν} {clauses : List (Clause ν)}
    (h : clause ∈ clauses) :
    Stmt.weights clause.handler + 8 ≤ Clause.weights clauses := by
  induction clauses with
  | nil => simp at h
  | cons first rest ih =>
      simp only [Clause.weights]
      rcases List.mem_cons.1 h with rfl | hRest
      · cases clause with
        | mk kind name handler =>
            simp only [Clause.weight, Clause.handler]
            omega
      · have := ih hRest
        omega

/-- To try the clauses of a region uses up their weight, or begins the handler of one of
them, which is lighter than all. -/
theorem weight_offer_lt (m : Machine ν) (region : Protected ν) (exception : Exception) :
    (m.offer region exception).weight < clausesWeight region.clauses +
      controlWeight m.control := by
  unfold offer
  dsimp only
  split
  · simp only [weight, focus_goto, control_goto, focusWeight, clausesWeight]
    omega
  · next clause index hFind =>
      have hMem : clause ∈ region.clauses := by
        have := List.mem_of_find?_eq_some hFind
        exact (List.mem_zipIdx' this).2 ▸ List.getElem_mem _
      have := handlerWeight_le hMem
      refine weight_perform_lt (by simp only [clausesWeight]; omega)
        fun after _ hControl => ?_
      simp only [weight, focus_enterBlock, control_enterBlock, control_push,
        control_assign, control_emit, focusWeight, controlWeight, waitingWeight,
        handlesWeight, hControl, clausesWeight]
      omega

/-- A region that is left hands its outcome on. -/
theorem weight_leave_lt (m : Machine ν) (region : Protected ν)
    (outcome : Except Exception (Option ν)) :
    (m.leave region outcome).weight < 6 + controlWeight m.control := by
  unfold leave
  refine weight_perform_lt (by omega) fun after _ hControl => ?_
  split
  all_goals
    simp only [weight, focus_goto, control_goto, control_emit, control_assign,
      focusWeight, hControl]
    omega

/-- An exception that is sent on begins an unwinding, or terminates the thread. -/
theorem weight_forward_lt (m : Machine ν) (exception : Exception) :
    (m.forward exception).weight < 2 + controlWeight m.control := by
  unfold forward
  refine weight_perform_lt (by omega) fun after uncaught hControl => ?_
  split
  · simp only [weight, focus_unwind, control_unwind, focusWeight, hControl]
    omega
  · exact (isLight_uncaught after _).weight_lt (by rw [hControl]; omega)

/-- An unwinding that passes a region uses up the region. -/
theorem weight_passThrough_lt (m : Machine ν) (region : Protected ν) (payload : Payload)
    {bound : Nat} (hBound : controlWeight m.control + 1 < bound) :
    (m.passThrough region payload).weight < bound := by
  unfold passThrough
  split
  · simp only [weight, focus_goto, control_goto, focusWeight]
    omega
  · refine weight_perform_lt hBound fun after _ hControl => ?_
    simp only [weight, focus_goto, control_goto, focusWeight, hControl]
    omega

/-- A raise whose message is complete begins an unwinding, or terminates the thread. -/
theorem weight_finishRaise_lt (m : Machine ν) (raising : Raising) :
    (m.finishRaise raising).weight < 2 + controlWeight m.control := by
  unfold finishRaise
  refine weight_perform_lt (by dsimp only; omega) fun after uncaught hControl => ?_
  split
  · simp only [weight, focus_unwind, control_unwind, focusWeight, hControl]
    omega
  · exact (isLight_uncaught after _).weight_lt (by rw [hControl]; dsimp only; omega)

/-- Even a message without pieces takes the raise at its end. -/
theorem two_le_pieceWeights (pieces : List (Piece ν)) : 2 ≤ Piece.weights pieces := by
  induction pieces with
  | nil => simp [Piece.weights]
  | cons piece rest ih =>
      simp only [Piece.weights]
      omega

/-- A message uses up its pieces, one after another. -/
theorem weight_write_lt (m : Machine ν) (raising : Raising) (pieces : List (Piece ν)) :
    (m.write raising pieces).weight < Piece.weights pieces +
      controlWeight m.control := by
  cases pieces with
  | nil =>
      simp only [write, Piece.weights]
      exact weight_finishRaise_lt m raising
  | cons piece rest =>
      have hRest := two_le_pieceWeights rest
      cases piece with
      | text text =>
          simp only [write, Piece.weights, Piece.weight]
          split
          · simp only [weight, focus_goto, control_goto, focusWeight]
            omega
          · have := weight_finishRaise_lt m { raising with buffer := ‹Bounded› }
            omega
      | run body =>
          simp only [write, Piece.weights, Piece.weight, weight, focus_enterBlock,
            control_enterBlock, control_push, focusWeight, controlWeight, waitingWeight,
            handlesWeight]
          omega

/-- A raise uses up its message, and the step that looks up its kind. -/
theorem weight_raise_lt (m : Machine ν) (ref : KindRef) (site : Site)
    (message : List (Piece ν)) :
    (m.raise ref site message).weight < Piece.weights message + 1 +
      controlWeight m.control := by
  have hMessage := two_le_pieceWeights message
  unfold raise
  split
  · exact (isLight_fatal m _ _).weight_lt (by omega)
  · refine weight_perform_lt (by omega) fun after limit hControl => ?_
    simp only [weight, focus_goto, control_goto, focusWeight, hControl]
    omega

/-- To enter a region uses up one of its levels. The levels below and the body still
have theirs. -/
theorem weight_protect_lt (m : Machine ν) (levels : Nat) (site : Site) (mode : Mode)
    (clauses : List (Clause ν)) (body : List (Stmt ν)) :
    (m.protect levels site mode clauses body).weight <
      (levels + 1) * (Clause.weights clauses + 8) + Stmt.weights body + 5 +
        controlWeight m.control := by
  unfold protect
  refine weight_perform_lt (by omega) fun after visit hControl => ?_
  dsimp only
  split
  · next inner =>
      simp only [weight, focus_goto, control_goto, control_push, focusWeight,
        controlWeight, waitingWeight, Stmt.weight, hControl, clausesWeight]
      have : (inner.succ.succ + 1) * (Clause.weights clauses + 8) =
          (inner + 1 + 1) * (Clause.weights clauses + 8) +
            (Clause.weights clauses + 8) :=
        Nat.succ_mul (inner + 2) _
      omega
  · have : 1 * (Clause.weights clauses + 8) ≤
        (levels + 1) * (Clause.weights clauses + 8) :=
      Nat.mul_le_mul_right _ (by omega)
    simp only [weight, focus_enterBlock, control_enterBlock, control_push, focusWeight,
      controlWeight, waitingWeight, handlesWeight, hControl, clausesWeight]
    omega

/-- Every statement uses up its weight. This is the sum of the lemmas above, one for
each kind of statement. -/
theorem weight_exec_lt (m : Machine ν) (stmt : Stmt ν) :
    (m.exec stmt).weight < stmt.weight + controlWeight m.control := by
  cases stmt with
  | raise kind site message => exact weight_raise_lt m kind site message
  | protect levels site mode clauses body =>
      simpa only [exec, Stmt.weight] using weight_protect_lt m levels site mode clauses
        body
  | guard scope flavor body =>
      have := weight_registerGuard_lt m scope flavor body
      simp only [exec, Stmt.weight]
      omega
  | release name how =>
      have := weight_release_lt m name how
      simp only [exec, Stmt.weight]
      omega
  | acquire name opening times =>
      cases times with
      | zero =>
          simp only [exec, Stmt.weight, weight, focus_goto, control_goto, focusWeight]
          omega
      | succ times =>
          simp only [exec, Stmt.weight]
          refine weight_acquire_lt (by omega) fun after hAfter => ?_
          simp only [weight, focus_goto, control_goto, focusWeight, Stmt.weight]
          omega
  | loop times body =>
      cases times with
      | zero =>
          simp only [exec, Stmt.weight, weight, focus_goto, control_goto, focusWeight]
          omega
      | succ times =>
          simp only [exec, Stmt.weight, weight, focus_enterBlock, control_enterBlock,
            control_push, focusWeight, controlWeight, waitingWeight, handlesWeight,
            Nat.succ_mul]
          omega
  | attempt body resume =>
      cases resume with
      | none =>
          simp only [exec, Stmt.weight, weight, focus_enterBlock, control_enterBlock,
            control_push, focusWeight, controlWeight, waitingWeight, handlesWeight]
          omega
      | some between =>
          simp only [exec, Stmt.weight, weight, focus_enterBlock, control_enterBlock,
            control_push, focusWeight, controlWeight, waitingWeight, handlesWeight]
          omega
  | block body =>
      simp only [exec, Stmt.weight, weight, focus_enterBlock, control_enterBlock,
        focusWeight, controlWeight, waitingWeight, handlesWeight]
      omega
  | rethrow name =>
      simp only [exec, Stmt.weight]
      split <;>
        simp only [weight, focus_goto, control_goto, focus_answer, control_answer,
          focusWeight] <;> omega
  | annotate text =>
      simp only [exec, Stmt.weight]
      split <;> simp only [weight, focus_answer, control_answer, focusWeight] <;> omega
  | inspect name =>
      simp only [exec, Stmt.weight]
      split <;>
        simp only [weight, focus_goto, control_goto, focus_answer, control_answer,
          focusWeight] <;> omega
  | configure config =>
      simp only [exec, Stmt.weight]
      split <;>
        simp only [weight, focus_answer, control_answer, control_note, focusWeight] <;>
        omega
  | declare entry =>
      simp only [exec, Stmt.weight]
      split <;>
        simp only [weight, focus_answer, control_answer, control_foldl_note,
          focusWeight] <;> omega
  | panic text =>
      simp only [exec, Stmt.weight, weight, focus_unwind, control_unwind, focusWeight]
      omega
  | value v =>
      simp only [exec, Stmt.weight, weight, focus_goto, control_goto, focusWeight]
      omega
  | printTrace =>
      simp only [exec, Stmt.weight, weight, focus_goto, control_goto, focusWeight]
      omega
  | sealKinds =>
      simp only [exec, Stmt.weight, weight, focus_goto, control_goto, focusWeight]
      omega
  | _ =>
      simp only [exec, Stmt.weight, weight, focus_answer, control_answer, focusWeight]
      omega

/-- A block that goes on uses up a statement, a handle, or itself. -/
theorem weight_proceed_lt (m : Machine ν) :
    m.proceed.weight < 2 + controlWeight m.control := by
  unfold proceed
  split
  case h_6 =>
    simp only [weight, focus_goto, control_goto, focusWeight]
    omega
  all_goals
    next hControl =>
      rw [hControl]
      simp only [weight, focus_goto, control_goto, focusWeight, controlWeight,
        waitingWeight, Stmt.weights, handlesWeight]
      omega

/-- A statement that has completed lets its block go on. -/
theorem weight_complete_lt (m : Machine ν) (value : Option (Option ν)) :
    (m.complete value).weight < 3 + controlWeight m.control := by
  unfold complete
  split
  · next hControl =>
      rw [hControl]
      simp only [weight, focus_goto, control_goto, control_emit, focusWeight,
        controlWeight, waitingWeight]
      omega
  · simp only [weight, focus_goto, control_goto, focusWeight]
    omega

/-- A value that is delivered uses up the code that waited for it. A loop has one round
less to go. -/
theorem weight_deliver_lt (m : Machine ν) (value : Option ν) :
    (m.deliver value).weight < 4 + controlWeight m.control := by
  unfold deliver
  split
  · simp only [weight, focus_goto, control_goto, focusWeight]
    omega
  · next waiting below hControl =>
      rw [hControl]
      simp only [controlWeight]
      split
      · simp only [weight, focus_goto, control_goto, focusWeight, hControl,
          controlWeight]
        omega
      · simp only [waitingWeight, clausesWeight]
        refine weight_perform_lt (by dsimp only; omega) fun after escape hAfter => ?_
        split <;>
          simp only [weight, focus_goto, control_goto, focusWeight, hAfter,
          clausesWeight] <;> omega
      · simp only [weight, focus_goto, control_goto, focusWeight, waitingWeight]
        omega
      · simp only [waitingWeight]
        refine weight_perform_lt (by dsimp only; omega) fun after _ hAfter => ?_
        simp only [weight, focus_goto, control_goto, focusWeight, hAfter]
        omega
      · simp only [weight, focus_goto, control_goto, focusWeight, waitingWeight]
        omega
      · simp only [weight, focus_goto, control_goto, focusWeight, waitingWeight]
        omega
      · simp only [weight, focus_answer, control_answer, focusWeight]
        omega
      · simp only [weight, focus_unwind, control_unwind, focusWeight, waitingWeight]
        omega
      · simp only [weight, focus_goto, control_goto, focusWeight, waitingWeight]
        omega
      · simp only [weight, focus_enterBlock, control_enterBlock, control_push,
          focusWeight, controlWeight, waitingWeight, handlesWeight, Nat.succ_mul]
        omega
      · simp only [weight, focus_goto, control_goto, focusWeight, waitingWeight]
        omega
      · split <;>
          simp only [weight, focus_goto, control_goto, control_closeThread, focusWeight,
            waitingWeight] <;>
          omega

/-- An unwinding uses up what it passes, or stops there. -/
theorem weight_propagate_lt (m : Machine ν) (payload : Payload) :
    (m.propagate payload).weight < 1 + controlWeight m.control := by
  unfold propagate
  split
  · simp only [weight, focus_goto, control_goto, focusWeight]
    omega
  · next waiting below hControl =>
      rw [hControl]
      simp only [controlWeight]
      split
      · simp only [weight, focus_goto, control_goto, focusWeight, waitingWeight]
        omega
      · simp only [weight, focus_goto, control_goto, control_push, focusWeight,
          controlWeight, waitingWeight, handlesWeight, Stmt.weights]
        omega
      · simp only [waitingWeight, clausesWeight]
        split
        · refine weight_perform_lt (by simp only [control_caught]; omega)
            fun after exception hAfter => ?_
          simp only [weight, focus_goto, control_goto, focusWeight, hAfter,
            control_caught, clausesWeight]
          omega
        · exact weight_passThrough_lt _ _ _ (by dsimp only; omega)
      · simp only [waitingWeight]
        exact weight_passThrough_lt _ _ _ (by dsimp only; omega)
      · next scope =>
          have := three_le_scopeWeight scope.bodies
          simp only [waitingWeight]
          refine (isLight_fatal _ _ _).weight_lt ?_
          simp only [control_caught]
          omega
      · simp only [weight, focus_goto, control_goto, focusWeight, waitingWeight]
        omega
      · simp only [weight, focus_goto, control_goto, focusWeight, waitingWeight]
        omega
      · split
        · simp only [weight, focus_goto, control_goto, control_emit, control_caught,
            focusWeight, waitingWeight]
          omega
        · simp only [weight, focus_enterBlock, control_enterBlock, control_push,
            control_emit, control_caught, focusWeight, controlWeight, waitingWeight,
            handlesWeight]
          omega
      · simp only [weight, focus_goto, control_goto, focusWeight, waitingWeight]
        omega
      · simp only [weight, focus_goto, control_goto, focusWeight, waitingWeight]
        omega
      · have := two_le_pieceWeights ‹List (Piece ν)›
        simp only [weight, focus_goto, control_goto, focusWeight, waitingWeight]
        omega
      · split <;>
          simp only [weight, focus_goto, control_goto, control_dropThread, focusWeight,
            waitingWeight] <;>
          omega

/-! ## Runs -/

/-- Whether a machine has stopped. -/
def IsStopped (m : Machine ν) : Prop :=
  ∃ how, m.focus = .stopped how

/-- Every step of a machine that has not stopped uses up weight. -/
theorem weight_step_lt (m : Machine ν) (h : ¬ m.IsStopped) :
    m.step.weight < m.weight := by
  unfold step
  rw [show m.weight = focusWeight m.focus + controlWeight m.control from rfl]
  split
  · next hFocus =>
      rw [hFocus]
      exact weight_proceed_lt m
  · next hFocus =>
      rw [hFocus]
      exact weight_exec_lt m _
  · next hFocus =>
      rw [hFocus]
      exact weight_complete_lt m _
  · next hFocus =>
      rw [hFocus]
      exact weight_deliver_lt m _
  · next hFocus =>
      rw [hFocus]
      exact weight_propagate_lt m _
  · next hFocus =>
      rw [hFocus]
      exact weight_offer_lt m _ _
  · next hFocus =>
      rw [hFocus]
      exact weight_leave_lt m _ _
  · next hFocus =>
      rw [hFocus]
      exact weight_forward_lt m _
  · next hFocus =>
      rw [hFocus]
      exact weight_drop_lt m _
  · next hFocus =>
      rw [hFocus]
      exact weight_leaveScope_lt m _
  · next hFocus =>
      rw [hFocus]
      exact weight_write_lt m _ _
  · next how hFocus => exact absurd ⟨how, hFocus⟩ h

/-- As many steps as a machine weighs are enough for it to stop. -/
theorem steps_isStopped (m : Machine ν) (count : Nat) (h : m.weight ≤ count) :
    (steps count m).IsStopped := by
  induction count generalizing m with
  | zero =>
      by_cases hStopped : m.IsStopped
      · simpa only [steps] using hStopped
      · have := weight_step_lt m hStopped
        omega
  | succ count ih =>
      unfold steps
      split
      · next how hFocus => exact ⟨how, hFocus⟩
      · next hNot =>
          have hStopped : ¬ m.IsStopped := fun ⟨how, hFocus⟩ => hNot how hFocus
          have := weight_step_lt m hStopped
          exact ih m.step (by omega)

/-- The run of a machine ends in a stop. -/
theorem run_isStopped (m : Machine ν) : m.run.IsStopped :=
  steps_isStopped m m.weight (Nat.le_refl _)

end Unwinding.Machine
