import Unwinding.Proofs.Plain

/-!
# Laws of plain code

How plain code comes apart: the statements of a block into the first one and the rest, a
block that is left into the handle that it drops first and the others, the clauses of a
region into the first one that fits. Whatever plain code does, it only adds to what has
been seen (`Plain.Grows`).

## Main results

* `Plain.evals_cons`, `Plain.leaving_cons`, `Plain.offer_eq` — the first part, and then
  the others.
* `Stmt.grows`, `Plain.grows_runAt` — what has been seen stays.
-/

namespace Unwinding

open Plain

variable {ν : Type}

namespace Plain

/-! ## What follows -/

section

variable {α β : Type}

/-- Something is thrown, whatever value there was. -/
def instead (thrown : Thrown) : Except Thrown α → Except Thrown β
  | .ok _ => .error thrown
  | .error other => .error other

/-- Code that only makes something of the value of other code. -/
theorem meet_give {γ : Type} (code : Plain ν α) (f : α → β)
    (next : Except Thrown β → Plain ν γ) :
    (code.andThen fun value => give (.ok (f value))).meet next = code.meet
      fun outcome => next (outcome.map f) := by
  funext store
  unfold andThen meet
  cases (code store).1 <;> rfl

/-- What follows code whose value becomes that of the block is told of the value it
gave. -/
theorem valued_meet (code : Plain ν (Option ν))
    (next : Except Thrown (Option (Option ν)) → Plain ν β) :
    (valued code).meet next = code.meet fun outcome => next (outcome.map some) :=
  meet_give code some next

/-- Code that comes between a throw and what follows it. -/
theorem meet_instead (code : Plain ν α) (thrown : Thrown)
    (next : Except Thrown β → Plain ν (Option ν)) :
    (code.andThen fun _ => throw thrown).meet next = code.meet
      fun outcome => next (instead thrown outcome) := by
  funext store
  unfold andThen meet
  cases (code store).1 <;> rfl

end

/-! ## The context -/

/-- A configuration that does not fit memory makes the attempt panic. -/
theorem openContext_overflowed (store : Store ν)
    (hFits : (store.config.getD {}).fitsMemory = false) :
    openContext store =
      (.error (.panicked (some "capacity overflow")),
      { store with config := some (store.config.getD {}) }) := by
  simp [openContext, hFits]

/-- A thread that has a context does not get another one. -/
theorem openContext_refused (store : Store ν)
    (hFits : (store.config.getD {}).fitsMemory = true)
    (hThere : (store.writing || store.opened) = true) :
    openContext store =
      (.ok (some .contextActive), { store with config := some (store.config.getD {})
      }) := by
  simp [openContext, hFits, hThere]

/-- A thread without one gets one. -/
theorem openContext_opened (store : Store ν)
    (hFits : (store.config.getD {}).fitsMemory = true)
    (hNot : (store.writing || store.opened) = false) :
    openContext store =
      (.ok none, { store with config := some (store.config.getD {}), opened := true
      }) := by
  simp [openContext, hFits, hNot]

/-- A thread that has no room for its context does not run its body. -/
theorem thread_overflowed (clock : Nat) (body : List (Stmt ν)) (store : Store ν)
    (hFits : (store.config.getD {}).fitsMemory = false) :
    thread clock true body store =
      (.error (.panicked (some "capacity overflow")),
        { store with config := some (store.config.getD {}) }) := by
  change (andThen openContext _) store = _
  unfold andThen meet
  rw [openContext_overflowed store hFits]
  rfl

/-- A program whose context could be opened is a block that is run. -/
theorem thread_opened (clock : Nat) (body : List (Stmt ν)) (store : Store ν)
    (hFits : (store.config.getD {}).fitsMemory = true)
    (hNot : (store.writing || store.opened) = false) :
    thread clock true body store =
      block (runAt clock) (Stmt.evals (runAt clock) body none)
      { store with config := some (store.config.getD {}), opened := true } := by
  change (andThen openContext _) store = _
  unfold andThen meet
  rw [openContext_opened store hFits hNot]

/-! ## Blocks -/

section

variable {α : Type} {runs : List (Stmt ν) → Plain ν (Option ν)} {store : Store ν}
    {final : Except Thrown α × Store ν}
  {unwinding : Bool} {count : Nat} {last outcome : Except Thrown (Option ν)}
  {follows : Except Thrown (Option ν) → Plain ν α}
  {name : String} {held : Held ν} {handles : List (String × Held ν)}
  {outer : List (List (String × Held ν))}

/-- A statement has completed, and its block goes on. -/
def afterStatement (runs : List (Stmt ν) → Plain ν (Option ν)) (word : String)
    (rest : List (Stmt ν)) (value : Option ν) :
    Except Thrown (Option (Option ν)) → Plain ν (Option ν)
  | .ok set => do
      see (.after word)
      Stmt.evals runs rest (set.getD value)
  | .error thrown => throw thrown

/-- A statement, and then the rest of its block. -/
theorem evals_cons (runs : List (Stmt ν) → Plain ν (Option ν)) (stmt : Stmt ν)
    (rest : List (Stmt ν)) (value : Option ν) :
    Stmt.evals runs (stmt :: rest) value =
      (stmt.eval runs).meet (afterStatement runs stmt.word rest value) := by
  funext store
  change (andThen (stmt.eval runs) _) store = _
  unfold andThen meet
  cases (stmt.eval runs store).1 <;> rfl

/-- A block is being left: it drops its handles, and ends in some way. -/
def leaving (runs : List (Stmt ν) → Plain ν (Option ν)) (unwinding : Bool) (count : Nat)
    (last : Except Thrown (Option ν)) :
    Plain ν (Option ν) :=
  (dropHandles runs unwinding count).andThen fun _ => give last

/-- To leave a block is to drop every handle that it has left. -/
theorem leaving_all (h : store.blocks = handles :: outer)
    (comes : (leaveBlock runs outcome).meet follows store = final) :
    (leaving runs (!outcome.isOk) handles.length outcome).meet follows store =
      final := by
  change (leaving runs (!outcome.isOk) (store.blocks.headD []).length outcome).meet
    follows store = final at comes
  rwa [h] at comes

/-- A block that has no handles just ends. -/
theorem leaving_nil (h : store.blocks = [] :: outer)
    (comes : (leaving runs unwinding count last).meet follows store = final) :
    (give last).meet follows { store with blocks := outer } = final := by
  have hEnds : dropHandles runs unwinding count store = endBlock store := by
    cases count with
    | zero => rfl
    | succ count =>
        change (andThen takeNewest _) store = _
        unfold andThen meet takeNewest
        rw [h]
  unfold leaving andThen meet at comes
  rw [hEnds] at comes
  change (give last).meet follows { store with blocks := store.blocks.tail } =
    final at comes
  rwa [h] at comes

/-- A block drops its newest handle, and then the others. -/
theorem leaving_cons (h : store.blocks = ((name, held) :: handles) :: outer)
    (comes : (leaving runs unwinding (count + 1) last).meet follows store = final) :
    (drop runs unwinding held).meet
      (fun outcome =>
        (((give outcome).andThen fun _ => dropHandles runs unwinding count).andThen
          fun _ => give last).meet follows)
      { store with blocks := handles :: outer } = final := by
  have hDrops : dropHandles runs unwinding (count + 1) store =
      (drop runs unwinding held).andThen (fun _ => dropHandles runs unwinding count)
        { store with blocks := handles :: outer } := by
    change (andThen takeNewest _) store = _
    unfold andThen meet takeNewest
    rw [h]
    rfl
  rw [← comes]
  unfold leaving
  exact congrArg
    (fun result => (andThen (fun _ => result) fun _ => give last).meet follows store)
    hDrops.symm

end

/-! ## Regions -/

section

variable {store : Store ν} {mode : Mode}
    {clauses : Raised → Plain ν (Option (Option ν))} {site : Option Site}
    {value : Option ν}

/-- A body that returned and abandoned no region in it lets its region return. -/
theorem afterBody_closed (h : store.escape = none) :
    afterBody mode clauses site (.ok value) store =
      leaveRegion mode (.ok value) { store with escape := site } := by
  obtain ⟨registry, config, opened, writing, bindings, path, found, blocks, log⟩ :=
    store
  obtain rfl : found = none := h
  rfl

/-- A body in which an explicit region was abandoned ends with an exception. -/
theorem afterBody_escaped {escape : Site} {raised : Raised}
    (h : store.escape = some escape)
    (hRaised : escapeRaised escape { store with escape := site } = raised) :
    afterBody mode clauses site (.ok value) store =
      ((clauses raised).meet (afterClauses mode raised)) { store with escape := site
        } := by
  obtain ⟨registry, config, opened, writing, bindings, path, found, blocks, log⟩ :=
    store
  obtain rfl : found = some escape := h
  subst hRaised
  rfl

end

/-- The handler of the first clause that fits, with its place. -/
def handle (runs : List (Stmt ν) → Plain ν (Option ν)) (raised : Raised) :
    Option (Clause ν × Nat) → Plain ν (Option (Option ν))
  | none => give (.ok none)
  | some (clause, index) => do
      see (.caught raised (← read fun store => store.registry.table.name raised.kind)
        index)
      assign clause.name raised
      valued (block runs (Stmt.evals runs clause.handler none))

/-- The clauses of a region are tried in their order. -/
theorem offer_eq (runs : List (Stmt ν) → Plain ν (Option ν)) (raised : Raised)
    (store : Store ν) (clauses : List (Clause ν)) (first : Nat) :
    Clause.offer runs clauses first raised store =
      handle runs raised
        ((clauses.zipIdx first).find? fun entry => store.registry.fits raised.kind
        entry.1.kind) store := by
  induction clauses generalizing first with
  | nil => rfl
  | cons clause rest ih =>
      obtain ⟨kind, name, handler⟩ := clause
      rw [List.zipIdx_cons, List.find?_cons]
      change (if store.registry.fits raised.kind kind = true then _ else
        Clause.offer runs rest (first + 1) raised) store = _
      cases hFits : store.registry.fits raised.kind kind with
      | true =>
          simp only [Clause.kind, hFits]
          rfl
      | false =>
          simp only [Clause.kind, hFits]
          exact ih _

/-! ## What has been seen -/

section

variable {α β : Type} {runs : List (Stmt ν) → Plain ν (Option ν)}

/-- Code that only adds to what has been seen. -/
def Grows (code : Plain ν α) : Prop :=
  ∀ store, store.log <:+ (code store).2.log

/-- To end at once takes nothing back of what has been seen. -/
theorem grows_give (outcome : Except Thrown α) :
    (give outcome : Plain ν α).Grows := fun _ =>
  List.suffix_refl _

/-- Code that goes on after other code takes nothing back, if neither does. -/
theorem grows_meet {code : Plain ν α} {next : Except Thrown α → Plain ν β}
    (h : code.Grows) (hNext : ∀ outcome, (next outcome).Grows) :
    (code.meet next).Grows := fun store =>
  (h store).trans (hNext _ _)

/-- The same, for code that goes on only if there is a value. -/
theorem grows_andThen {code : Plain ν α} {next : α → Plain ν β} (h : code.Grows)
    (hNext : ∀ value, (next value).Grows) :
    (code >>= next).Grows :=
  grows_meet h fun outcome => by
    cases outcome with
    | ok value => exact hNext value
    | error thrown => exact grows_give _

/-- Most changes see nothing. -/
theorem grows_quietly {f : Store ν → Store ν} (h : ∀ store, (f store).log = store.log) :
    (change f).Grows := fun store =>
  (h store).symm ▸ List.suffix_refl _

private theorem grows_reads {f : Store ν → α} {next : α → Plain ν β}
    (h : ∀ value, (next value).Grows) :
    (read f >>= next).Grows :=
  grows_andThen (fun _ => List.suffix_refl _) h

/-- To show something takes nothing back. -/
theorem grows_see (sighting : Sighting ν) : (see sighting).Grows := fun _ =>
  List.suffix_cons _ _

private theorem grows_own (name : String) (held : Held ν) : (own name held).Grows :=
  grows_quietly fun store => by
    obtain ⟨registry, config, opened, writing, bindings, path, escape, blocks, log⟩ :=
      store
    cases blocks <;> rfl

private theorem grows_openContext : (openContext : Plain ν (Option Error)).Grows :=
    fun store => by
  unfold openContext
  dsimp only
  split
  · exact List.suffix_refl _
  · split <;> exact List.suffix_refl _

private theorem grows_acquire (name : String) (opening : Opening) (times : Nat) :
    (acquire name opening times : Plain ν _).Grows := by
  induction times with
  | zero => exact grows_give _
  | succ times ih =>
      refine grows_andThen ?_ fun _ => ih
      cases opening with
      | thread limits =>
          refine grows_andThen grows_openContext fun opened => ?_
          cases opened with
          | none => exact grows_own _ _
          | some error => exact grows_see _
      | region site =>
          exact grows_andThen (grows_quietly fun _ => rfl) fun _ => grows_own _ _
      | call site =>
          exact grows_andThen (grows_quietly fun _ => rfl) fun _ => grows_own _ _
      | guards site => exact grows_own _ _

/-- Guard bodies that are run one after the other take nothing back of what has been
seen. -/
theorem grows_guardBodies (hRuns : ∀ body, (runs body).Grows) (unwinding : Bool)
    (bodies : List (Flavor × List (Stmt ν))) :
    (guardBodies runs unwinding bodies).Grows := by
  induction bodies with
  | nil => exact grows_give _
  | cons entry bodies ih =>
      obtain ⟨flavor, body⟩ := entry
      unfold guardBodies
      split
      · refine grows_andThen (grows_meet (hRuns body) fun outcome => ?_) fun _ => ih
        cases outcome <;> exact grows_give _
      · exact ih

private theorem grows_comeBack : (comeBack : Plain ν Unit).Grows :=
  grows_quietly fun _ => rfl

/-- A handle that is dropped takes nothing back. -/
theorem grows_drop (hRuns : ∀ body, (runs body).Grows) (unwinding : Bool)
    (held : Held ν) : (drop runs unwinding held).Grows := by
  cases held with
  | thread => exact grows_quietly fun _ => rfl
  | region site =>
      cases unwinding with
      | true => exact grows_andThen grows_comeBack fun _ => grows_give _
      | false => exact grows_andThen grows_comeBack fun _ => grows_quietly fun _ => rfl
  | call => exact grows_comeBack
  | guards bodies => exact grows_guardBodies hRuns unwinding bodies

private theorem grows_giveUp (hRuns : ∀ body, (runs body).Grows) (how : Closing)
    (held : Held ν) : (giveUp runs how held).Grows := by
  have hDrops :
      (drop runs false held >>= fun _ => give (.ok (none : Option (Option ν)))).Grows :=
    grows_andThen (grows_drop hRuns false held) fun _ => grows_give _
  cases how with
  | forget => exact grows_give _
  | drop => exact hDrops
  | leave =>
      cases held with
      | region site => exact grows_andThen grows_comeBack fun _ => grows_give _
      | _ => exact hDrops
  | shutdown =>
      cases held with
      | thread =>
          exact grows_andThen (grows_quietly fun _ => rfl)
            fun _ => grows_andThen (grows_see _) fun _ => grows_give _
      | _ => exact hDrops

private theorem grows_release (hRuns : ∀ body, (runs body).Grows) (name : String)
    (how : Closing) : (release runs name how).Grows :=
  grows_reads fun found => by
    cases found with
    | none => exact grows_give _
    | some found =>
        exact grows_andThen (grows_quietly fun _ => rfl)
          fun _ => grows_giveUp hRuns how found.1

private theorem grows_register (name : String) (flavor : Flavor)
    (body : List (Stmt ν)) : (register name flavor body).Grows :=
  grows_reads fun found => by
    rcases found with _ | (_ | _ | _ | bodies)
    iterate 4 exact grows_give _
    exact grows_andThen (grows_quietly fun _ => rfl)
      fun _ => grows_andThen (grows_see _) fun _ => grows_give _

/-- The handles of a block that are dropped one after the other take nothing back. -/
theorem grows_dropHandles (hRuns : ∀ body, (runs body).Grows) (unwinding : Bool)
    (count : Nat) :
    (dropHandles runs unwinding count).Grows := by
  have hEnds : (endBlock : Plain ν Unit).Grows := grows_quietly fun _ => rfl
  induction count with
  | zero => exact hEnds
  | succ count ih =>
      refine grows_andThen (fun store => ?_) fun newest => ?_
      · unfold takeNewest
        split <;> exact List.suffix_refl _
      · cases newest with
        | none => exact hEnds
        | some held => exact grows_andThen (grows_drop hRuns unwinding held) fun _ => ih

/-- A block that is left takes nothing back. -/
theorem grows_leaveBlock (hRuns : ∀ body, (runs body).Grows)
    (outcome : Except Thrown (Option ν)) : (leaveBlock runs outcome).Grows :=
  grows_reads fun count => grows_andThen (grows_dropHandles hRuns _ count)
    fun _ => grows_give _

/-- A block that is run takes nothing back. -/
theorem grows_block (hRuns : ∀ body, (runs body).Grows) {code : Plain ν (Option ν)}
    (h : code.Grows) : (block runs code).Grows :=
  grows_andThen (grows_quietly fun _ => rfl)
    fun _ => grows_meet h (grows_leaveBlock hRuns)

/-- A message that is complete takes nothing back. -/
theorem grows_finishRaise (kind : Kind) (site : Site)
    (written : Except Thrown Bounded) :
    (finishRaise kind site written : Plain ν α).Grows := by
  refine grows_andThen (grows_quietly fun _ => rfl) fun _ => ?_
  cases written with
  | ok buffer => exact grows_reads fun _ => grows_give _
  | error thrown => exact grows_give _

private theorem grows_raise {write : Bounded → Plain ν Bounded}
    (h : ∀ buffer, (write buffer).Grows) (ref : KindRef) (site : Site) :
    (raise ref site write : Plain ν α).Grows :=
  grows_reads fun slots => by
    cases ref.resolve? slots with
    | none => exact grows_give _
    | some kind =>
        exact grows_reads fun _ => grows_andThen (grows_quietly fun _ => rfl)
          fun _ => grows_meet (h _) (grows_finishRaise kind site)

private theorem grows_answer (sighting : Sighting ν) : (answer sighting).Grows :=
  grows_andThen (grows_see sighting) fun _ => grows_give _

private theorem grows_assign (name : String) (raised : Raised) :
    (assign name raised : Plain ν Unit).Grows :=
  grows_quietly fun _ => rfl

/-- A region that is left takes nothing back. -/
theorem grows_leaveRegion (mode : Mode) (outcome : Except Raised (Option ν)) :
    (leaveRegion mode outcome).Grows := by
  refine grows_andThen grows_comeBack fun _ => ?_
  cases outcome with
  | ok value => cases mode <;> exact grows_andThen (grows_see _) fun _ => grows_give _
  | error raised =>
      cases mode with
      | run => exact grows_give _
      | attempt name =>
          exact grows_andThen (grows_assign name raised) fun _ => grows_reads
            fun _ => grows_andThen (grows_see _) fun _ => grows_give _

/-- What follows on the clauses of a region takes nothing back. -/
theorem grows_afterClauses (mode : Mode) (raised : Raised)
    (outcome : Except Thrown (Option (Option ν))) :
    (afterClauses mode raised outcome).Grows := by
  rcases outcome with thrown | _ | value
  · exact grows_andThen grows_comeBack fun _ => grows_give _
  · exact grows_leaveRegion _ _
  · exact grows_leaveRegion _ _

/-- What follows on the body of a region takes nothing back. -/
theorem grows_afterBody {clauses : Raised → Plain ν (Option (Option ν))}
    (h : ∀ raised, (clauses raised).Grows) (mode : Mode) (outer : Option Site)
    (outcome : Except Thrown (Option ν)) :
    (afterBody mode clauses outer outcome).Grows := by
  refine grows_reads fun escape => grows_andThen (grows_quietly fun _ => rfl)
    fun _ => ?_
  have hCatches (raised : Raised) :
      ((clauses raised).meet (afterClauses mode raised)).Grows :=
    grows_meet (h raised) (grows_afterClauses mode raised)
  cases outcome with
  | ok value =>
      cases escape with
      | none => exact grows_leaveRegion _ _
      | some site => exact grows_reads hCatches
  | error thrown =>
      cases thrown with
      | raised raised => exact hCatches raised
      | panicked text => exact grows_andThen grows_comeBack fun _ => grows_give _
      | stuck => exact grows_andThen grows_comeBack fun _ => grows_give _

/-- A region takes nothing back, if its body and its clauses do not. -/
theorem grows_region {clauses : Raised → Plain ν (Option (Option ν))}
    (h : ∀ raised, (clauses raised).Grows) (site : Site) (mode : Mode)
    {body : Plain ν (Option ν)} (hBody : body.Grows) :
    (region site mode clauses body).Grows :=
  grows_reads fun outer => grows_andThen (grows_quietly fun _ => rfl)
    fun _ => grows_meet hBody (grows_afterBody h mode outer)

/-- Regions inside each other take nothing back, if one around any code does not. -/
theorem grows_nested {wrap : Plain ν (Option ν) → Plain ν (Option ν)}
    (h : ∀ code, code.Grows → (wrap code).Grows) (levels : Nat)
    {body : Plain ν (Option ν)} (hBody : body.Grows) :
    (nested wrap levels body).Grows := by
  fun_induction nested wrap levels body with
  | case1 inner body ih => exact h _ (ih hBody)
  | case2 levels body => exact h _ hBody

/-- Code that is repeated takes nothing back, if it does not when it is run once. -/
theorem grows_repeats {code : Plain ν (Option ν)} (h : code.Grows) (times : Nat) :
    (repeats code times).Grows := by
  induction times with
  | zero => exact grows_give _
  | succ times ih => exact grows_andThen h fun _ => ih

/-- What stops an unwinding takes nothing back. -/
theorem grows_afterAttempt {resume : Option (Plain ν (Option ν))}
    (h : ∀ between ∈ resume, between.Grows) (outcome : Except Thrown (Option ν)) :
    (afterAttempt resume outcome).Grows := by
  cases outcome with
  | ok value => exact grows_answer _
  | error thrown =>
      unfold afterAttempt
      dsimp only
      split
      · exact grows_give _
      · refine grows_andThen (grows_see _) fun _ => ?_
        cases resume with
        | none => exact grows_give _
        | some between => exact grows_andThen (h between rfl) fun _ => grows_give _

private theorem grows_declare (entry : Registry.Entry) :
    (declare entry : Plain ν _).Grows :=
  grows_reads fun outcome => by
    cases outcome with
    | error error => exact grows_answer _
    | ok outcome =>
        exact grows_andThen (grows_quietly fun _ => rfl) fun _ => grows_answer _

private theorem grows_configure (config : Config) :
    (configure config : Plain ν _).Grows :=
  grows_reads fun installed => by
    cases installed with
    | none => exact grows_andThen (grows_quietly fun _ => rfl) fun _ => grows_answer _
    | some installed => exact grows_answer _

end

end Plain

section

variable {runs : List (Stmt ν) → Plain ν (Option ν)}

mutual

/-- A statement takes nothing back of what has been seen, if no guard body does. -/
theorem Stmt.grows (hRuns : ∀ body, (runs body).Grows) (stmt : Stmt ν) :
    (stmt.eval runs).Grows := by
  cases stmt with
  | depths => exact grows_answer _
  | state => exact grows_answer _
  | trace => exact grows_answer _
  | current => exact grows_answer _
  | printTrace => exact grows_give _
  | say text => exact grows_answer _
  | annotate text => exact grows_answer _
  | value value => exact grows_give _
  | raise ref site message => exact grows_raise (Piece.grows hRuns message) ref site
  | panic text => exact grows_give _
  | rethrow name =>
      refine grows_reads fun found => ?_
      cases found with
      | none => exact grows_answer _
      | some raised => exact grows_give _
  | exception name => exact grows_reads fun _ => grows_answer _
  | exceptionIsA name ancestor => exact grows_reads fun _ => grows_answer _
  | protect levels site mode clauses body =>
      refine grows_andThen (grows_nested (fun code hCode => ?_) levels ?_)
        fun _ => grows_give _
      · exact grows_region (Clause.grows hRuns clauses 0) site mode hCode
      · exact grows_block hRuns (Stmt.grows_all hRuns body none)
  | block body =>
      exact grows_andThen (grows_block hRuns (Stmt.grows_all hRuns body none))
        fun _ => grows_give _
  | loop times body =>
      exact grows_repeats (grows_block hRuns (Stmt.grows_all hRuns body none)) times
  | attempt body resume =>
      have hBody := grows_block hRuns (Stmt.grows_all hRuns body none)
      cases resume with
      | none => exact grows_meet hBody (grows_afterAttempt nofun)
      | some between =>
          refine grows_meet hBody (grows_afterAttempt fun code hSome => ?_)
          cases hSome
          exact grows_block hRuns (Stmt.grows_all hRuns between none)
  | acquire name opening times => exact grows_acquire name opening times
  | release name how => exact grows_release hRuns name how
  | guard scope flavor body => exact grows_register scope flavor body
  | inspect name =>
      refine grows_reads fun found => ?_
      cases found with
      | none => exact grows_give _
      | some held => exact grows_answer _
  | configure config => exact grows_configure config
  | declare entry => exact grows_declare entry
  | sealKinds => exact grows_andThen (grows_quietly fun _ => rfl) fun _ => grows_give _
  | isA candidate ancestor => exact grows_reads fun _ => grows_answer _
  | listKinds => exact grows_reads fun _ => grows_answer _

/-- A list of statements takes nothing back, if no guard body does. -/
theorem Stmt.grows_all (hRuns : ∀ body, (runs body).Grows) (stmts : List (Stmt ν))
    (value : Option ν) :
    (Stmt.evals runs stmts value).Grows := by
  cases stmts with
  | nil => exact grows_give _
  | cons stmt rest =>
      exact grows_andThen (Stmt.grows hRuns stmt) fun _ => grows_andThen (grows_see _)
        fun _ => Stmt.grows_all hRuns rest _

/-- Nor do the clauses of a region, one of which may be run. -/
theorem Clause.grows (hRuns : ∀ body, (runs body).Grows) (clauses : List (Clause ν))
    (first : Nat) (raised : Raised) :
    (Clause.offer runs clauses first raised).Grows := by
  cases clauses with
  | nil => exact grows_give _
  | cons clause rest =>
      obtain ⟨kind, name, handler⟩ := clause
      refine grows_reads fun registry => ?_
      split
      · exact grows_andThen (grows_see _)
          fun _ => grows_andThen (grows_assign name raised) fun _ =>
          grows_andThen (grows_block hRuns (Stmt.grows_all hRuns handler none))
            fun _ => grows_give _
      · exact Clause.grows hRuns rest _ raised

/-- Nor does a message, the pieces of which may be code. -/
theorem Piece.grows (hRuns : ∀ body, (runs body).Grows) (pieces : List (Piece ν))
    (buffer : Bounded) :
    (Piece.write runs pieces buffer).Grows := by
  cases pieces with
  | nil => exact grows_give _
  | cons piece pieces =>
      cases piece with
      | text text =>
          unfold Piece.write
          split
          · exact Piece.grows hRuns pieces _
          · exact grows_give _
      | run body =>
          exact grows_andThen (grows_block hRuns (Stmt.grows_all hRuns body none))
            fun _ => Piece.grows hRuns pieces _

end

end

/-- So nothing that a program has shown is ever taken back, however deep the guard
bodies run inside each other. -/
theorem Plain.grows_runAt (clock : Nat) (body : List (Stmt ν)) :
    (runAt clock body).Grows := by
  induction clock generalizing body with
  | zero => exact grows_give _
  | succ clock ih => exact grows_block ih (Stmt.grows_all ih body none)

end Unwinding
