import Unwinding.Proofs.Books
import Unwinding.Proofs.Extent

/-!
# What the stacks hold for a ledger

Each open extent accounts for certain entries of the five stacks, and the stacks hold
nothing else. `Built` says so one extent at a time: a traced call has put its frame on
what was there when it was entered, a protected region its mark, its dispatch mark while
exceptions still come to it, its frame, and the record of the exception that it has
caught. The entries lie on a `base`, which is empty for a whole thread; a run inside a
region is compared with what the region found.

`Keeps` ties this to a context. For each step on a context there is one law that says
which ledger it turns into which, and how it can fail.

## Main results

* `Built.reporter` — numbers, owners and frames of a shape that is built are in order.
* `keeps_enter`, `keeps_leave_protecting`, `keeps_leave_region`, `keeps_abandon` —
  regions.
* `keeps_catchInFlight`, `keeps_claimEscape`, `keeps_beginHandling`, `keeps_raise`,
  `keeps_forward` — exceptions.
* `keeps_openScope`, `keeps_closeScope`, `keeps_shield`, `keeps_popShield`,
  `keeps_enterCall`, `keeps_leaveCall`, `keeps_annotate` — everything else.
-/

namespace Unwinding

open Context

/-! ## Shapes that are built -/

/-- A record tells of an exception: what was raised, and where. -/
def Record.TellsOf (record : Record) (exception : Exception) : Prop :=
  record.kind = exception.kind ∧ record.message = exception.message ∧ record.origin =
    exception.origin

private theorem tellsOf_against (record : Record) (frames : List Frame) :
    record.TellsOf (record.against frames) :=
  ⟨rfl, rfl, rfl⟩

/-- The dispatch marks that a region has at a phase. -/
def Phase.marks (owner : Nat) : Phase → List Dispatch
  | .body => [.region owner]
  | .clauses _ => [.region owner]
  | .handler _ => []

/-- A phase and the record of what the region has caught. -/
inductive Phase.Holds : Phase → Option Record → Prop
  | body : Holds .body none
  | clauses {record : Record} {caught : Exception} (tells : record.TellsOf caught) :
      Holds (.clauses caught) (some record)
  | handler {record : Record} {caught : Exception} (tells : record.TellsOf caught) :
      Holds (.handler caught) (some record)

/-- The entries that a ledger accounts for, on top of a base whose numbers are below a
floor. All numbers of the shape are below `next`.

Each constructor puts one extent on top of what was there, and takes what the extent
remembers of its entry from the shape below. So a shape that is built can be taken apart
again in the order of the ledger, and each extent finds what it looks for. -/
inductive Built (base : Shape) (floor : Nat) : Nat → List Extent → Shape → Prop
  | base {next : Nat} (isFree : floor ≤ next) : Built base floor next [] base
  | thread {next : Nat} (isFree : floor ≤ next) : Built base floor next [.thread] base
  | call {next : Nat} {ledger : List Extent} {under : Shape} {frame : Frame}
      {entry : Depths}
      (below : Built base floor next ledger under) (hEntry : entry = under.depths) :
      Built base floor next (.call entry :: ledger)
        { under with frames := frame :: under.frames }
  | region {next : Nat} {ledger : List Extent} {under : Shape} {frame : Frame}
      {visit : Visit}
      (below : Built base floor visit.id ledger under) (isFree : visit.id < next)
      (hEntry : visit.entry = under.depths)
      (isExplicit : visit.explicit = true) :
      Built base floor next (.region visit :: ledger) { under with
        regions := ⟨visit, .entered⟩ :: under.regions
        frames := frame :: under.frames }
  | scope {next mark : Nat} {ledger : List Extent} {under : Shape} {site : Site}
      (below : Built base floor mark ledger under) (isFree : mark < next) :
      Built base floor next (.scope mark :: ledger)
        { under with guards := ⟨mark, site⟩ :: under.guards }
  | guardBody {next mark : Nat} {ledger : List Extent} {under : Shape}
      {parked : Option Record}
      (below : Built base floor next (.scope mark :: ledger) under)
      (hAnchored : ∀ record ∈ parked, record.reachesAbove under.frames.length = false) :
      Built base floor next (.guardBody mark :: .scope mark :: ledger) { under with
        dispatch :=
          .guard mark (parked.map fun _ => under.records.length) :: under.dispatch
        records := parked.toList ++ under.records }
  | protecting {next : Nat} {ledger : List Extent} {under : Shape} {frame : Frame}
      {visit : Visit} {phase : Phase}
      {caught : Option Record} (below : Built base floor visit.id ledger under)
      (isFree : visit.id < next)
      (hEntry : visit.entry = under.depths) (isProtected : visit.explicit = false)
      (hCaught : phase.Holds caught)
      (hAnchored : ∀ record ∈ caught, record.reachesAbove (under.frames.length + 1) =
        false) :
      Built base floor next (.protecting visit phase :: ledger) { under with
        regions := ⟨visit, phase.state⟩ :: under.regions
        dispatch := phase.marks visit.id ++ under.dispatch
        frames := frame :: under.frames
        records := caught.toList ++ under.records }

/-- A base that a run may be compared with: its numbers are below the floor, and its
records need no other frames. -/
structure Shape.Grounded (base : Shape) (floor : Nat) : Prop where
  owners : ∀ mark ∈ base.dispatch, mark.owner < floor
  anchored : base.Anchored

private theorem Shape.grounded_empty (floor : Nat) : ({} : Shape).Grounded floor where
  owners := by simp
  anchored := by simp [Shape.Anchored]

namespace Built

variable {base shape : Shape} {floor next : Nat} {ledger : List Extent}

private theorem mono {higher : Nat} (h : Built base floor next ledger shape)
    (hLe : next ≤ higher) :
    Built base floor higher ledger shape := by
  induction h with
  | base isFree => exact .base (Nat.le_trans isFree hLe)
  | thread isFree => exact .thread (Nat.le_trans isFree hLe)
  | call below hEntry ih => exact .call (ih hLe) hEntry
  | region below isFree hEntry isExplicit ih =>
      exact .region below (Nat.lt_of_lt_of_le isFree hLe) hEntry isExplicit
  | scope below isFree ih => exact .scope below (Nat.lt_of_lt_of_le isFree hLe)
  | guardBody below hAnchored ih => exact .guardBody (ih hLe) hAnchored
  | protecting below isFree hEntry isProtected hCaught hAnchored ih =>
      exact .protecting below (Nat.lt_of_lt_of_le isFree hLe) hEntry isProtected hCaught
        hAnchored

/-- In a shape that is built, every record that needs a frame finds it on the frame
stack. -/
theorem anchored (h : Built base floor next ledger shape)
    (hBase : base.Grounded floor) : shape.Anchored := by
  induction h with
  | base isFree => exact hBase.anchored
  | thread isFree => exact hBase.anchored
  | call below hEntry ih =>
      exact fun record hMem => Record.reachesAbove_mono (ih record hMem) (Nat.le_succ _)
  | region below isFree hEntry isExplicit ih =>
      exact fun record hMem => Record.reachesAbove_mono (ih record hMem) (Nat.le_succ _)
  | scope below isFree ih => exact ih
  | guardBody below hAnchored ih =>
      intro record hMem
      rcases List.mem_append.1 hMem with hParked | hUnder
      · exact hAnchored record (by simpa using hParked)
      · exact ih record hUnder
  | protecting below isFree hEntry isProtected hCaught hAnchored ih =>
      intro record hMem
      rcases List.mem_append.1 hMem with hOwn | hUnder
      · exact hAnchored record (by simpa using hOwn)
      · exact Record.reachesAbove_mono (ih record hUnder) (Nat.le_succ _)

private theorem scope_lt {mark : Nat}
    (h : Built base floor next (.scope mark :: ledger) shape) : mark < next := by
  cases h with
  | scope below isFree => exact isFree

/-- The owners of dispatch marks are numbers that have been given out. -/
theorem owner_lt (h : Built base floor next ledger shape)
    (hBase : base.Grounded floor) :
    ∀ mark ∈ shape.dispatch, mark.owner < next := by
  induction h with
  | base isFree =>
      exact fun mark hMem => Nat.lt_of_lt_of_le (hBase.owners mark hMem) isFree
  | thread isFree =>
      exact fun mark hMem => Nat.lt_of_lt_of_le (hBase.owners mark hMem) isFree
  | call below hEntry ih => exact ih
  | region below isFree hEntry isExplicit ih =>
      exact fun mark hMem => Nat.lt_trans (ih mark hMem) isFree
  | scope below isFree ih => exact fun mark hMem => Nat.lt_trans (ih mark hMem) isFree
  | guardBody below hAnchored ih =>
      intro mark hMem
      rcases List.mem_cons.1 hMem with rfl | hUnder
      · exact below.scope_lt
      · exact ih mark hUnder
  | @protecting _ _ _ _ visit phase _ below isFree hEntry isProtected hCaught hAnchored
      ih =>
      intro mark hMem
      rcases List.mem_append.1 hMem with hOwn | hUnder
      · have hOwner : mark = .region visit.id := by
          cases phase <;> simp [Phase.marks] at hOwn <;> exact hOwn
        rw [hOwner]
        exact isFree
      · exact Nat.lt_trans (ih mark hUnder) isFree

end Built

/-- A region that is left removes its own dispatch mark and no other. -/
theorem dropOwn_marks {visit : Visit} (phase : Phase) {dispatch : List Dispatch}
    (isProtected : visit.explicit = false)
    (hOwners : ∀ mark ∈ dispatch, mark.owner < visit.id) :
    dropOwn visit (phase.marks visit.id ++ dispatch) = dispatch := by
  have hOther : dropOwn visit dispatch = dispatch := by
    cases dispatch with
    | nil => rfl
    | cons mark rest =>
        have hNe : mark.owner ≠ visit.id := Nat.ne_of_lt (hOwners mark (by simp))
        simp [dropOwn, hNe]
  cases phase with
  | body => simp [Phase.marks, dropOwn, isProtected, Dispatch.owner]
  | clauses caught => simp [Phase.marks, dropOwn, isProtected, Dispatch.owner]
  | handler caught => simpa [Phase.marks] using hOther

/-- An explicit region has no dispatch mark to drop. -/
theorem dropOwn_of_explicit {visit : Visit} (dispatch : List Dispatch)
    (isExplicit : visit.explicit = true) :
    dropOwn visit dispatch = dispatch := by
  cases dispatch <;> simp [dropOwn, isExplicit]

/-! ## Contexts that keep a ledger -/

/-- Which of the guard bodies that run park a record, the innermost body first. -/
def parkings (dispatch : List Dispatch) : List Bool :=
  dispatch.filterMap fun mark =>
    match mark with
    | .region _ => none
    | .guard _ parked => some parked.isSome

@[simp] theorem parkings_nil : parkings [] = [] := rfl

@[simp] theorem parkings_region (owner : Nat) (rest : List Dispatch) :
    parkings (.region owner :: rest) = parkings rest := rfl

@[simp] theorem parkings_guard (owner : Nat) (parked : Option Nat)
    (rest : List Dispatch) :
    parkings (.guard owner parked :: rest) = parked.isSome :: parkings rest := rfl

@[simp] theorem parkings_marks (owner : Nat) (phase : Phase) (rest : List Dispatch) :
    parkings (phase.marks owner ++ rest) = parkings rest := by
  cases phase <;> rfl

/-- A context holds what a ledger accounts for; a record is in flight or not, and some
guard bodies park records.

The flags say in which course of things the context is: whether a record is in flight,
and which of the guard bodies park one. They are what code that runs, handles that are
dropped and unwindings differ in. -/
structure Keeps (base : Shape) (floor : Nat) (context : Context) (ledger : List Extent)
    (flying : Bool)
    (parked : List Bool) (books : Books) : Prop where
  represents : Represents context books
  built : Built base floor books.nextId ledger books.shape
  grounded : base.Grounded floor
  anchored : ∀ record ∈ books.flight, record.reachesAbove books.shape.frames.length =
    false
  isFlying : books.flight.isSome = flying
  parks : parkings books.shape.dispatch = parked

variable {base : Shape} {floor : Nat} {context : Context} {ledger : List Extent}
    {flying : Bool} {parked : List Bool}
  {books : Books}

/-- If nothing is in flight, the books know of no record in flight either. -/
theorem Keeps.landed (h : Keeps base floor context ledger false parked books) :
    books.flight = none := by
  simpa using h.isFlying

/-- The journal is none of the entries that a ledger accounts for. -/
theorem Keeps.stored (h : Keeps base floor context ledger flying parked books) :
    Keeps base floor { context with journal := [] } ledger flying parked books :=
  { h with represents := { h.represents with } }

/-- A guard body runs directly above its scope. -/
theorem Keeps.scope_of_guardBody {mark : Nat}
    (h : Keeps base floor context (.guardBody mark :: ledger) flying parked books) :
    ∃ rest, ledger = .scope mark :: rest := by
  have built := h.built
  generalize books.shape = shape at built
  cases built with
  | guardBody below hAnchored => exact ⟨_, rfl⟩

/-- The thread itself is the outermost extent. -/
theorem Keeps.alone
    (h : Keeps base floor context (.thread :: ledger) flying parked books) :
    ledger = [] := by
  have built := h.built
  generalize books.shape = shape at built
  cases built with
  | thread isFree => rfl

/-- With nothing open but the thread itself, no guard body runs. -/
theorem Keeps.parked_of_thread
    (h : Keeps {} floor context [.thread] flying parked books) : parked = [] := by
  rw [← h.parks]
  have built := h.built
  generalize books.shape = shape at built
  cases built with
  | thread isFree => rfl

/-- A context that has just been made keeps the ledger of a thread that has opened
nothing else. -/
theorem keeps_new (config : Config) (limits : Limits) :
    ∃ books, Keeps {} 0 (.new config limits) [.thread] false [] books :=
  ⟨{ shape := {}
     escapes := []
     nextId := 1
     messageLimit := config.messageLimit
     escapeKind := config.escapeKind },
   ⟨rfl, rfl, rfl, rfl, rfl, rfl, rfl, rfl, rfl, rfl, Nat.zero_le _⟩,
   .thread (Nat.zero_le _), Shape.grounded_empty 0, by simp, rfl, rfl⟩

/-! ## Regions -/

/-- The extent of a region that has just been entered. -/
def entered (explicit : Bool) (visit : Visit) : Extent :=
  if explicit then .region visit else .protecting visit .body

/-- To enter a region puts it on the ledger, and fails only for want of room. -/
theorem keeps_enter {site : Site} {explicit : Bool}
    (h : Keeps base floor context ledger false parked books) :
    Ends (enter site explicit context)
      (fun visit after => ∃ books,
        Keeps base floor after (entered explicit visit :: ledger) false parked books)
        NoRoom := by
  have hFlight := h.landed
  refine (ends_enter h.represents hFlight).imp fun visit after hAfter => ?_
  obtain ⟨rfl, hAfter⟩ := hAfter
  cases explicit with
  | true =>
      refine ⟨_, hAfter, ?_, h.grounded, ?_, ?_, h.parks⟩
      · exact .region h.built (Nat.lt_succ_self _) rfl rfl
      · simp [hFlight]
      · simp [hFlight]
  | false =>
      refine ⟨_, hAfter, ?_, h.grounded, ?_, ?_, by simpa using h.parks⟩
      · exact @Built.protecting base floor _ _ _ _ _ _ none h.built (Nat.lt_succ_self _)
          rfl rfl .body (by simp)
      · simp [hFlight]
      · simp [hFlight]

/-- An explicit region that is innermost can always be left: when it is, the stacks are
as the ledger below it says. -/
theorem keeps_leave_region {visit : Visit} {unwinding : Bool}
    (h : Keeps base floor context (.region visit :: ledger) flying parked books)
    (hMode : flying = true → unwinding = true) :
    Ends (leave visit unwinding context)
      (fun _ after => ∃ books, Keeps base floor after ledger flying parked books)
        fun _ => False := by
  obtain ⟨represents, built, grounded, anchored, isFlying, parks⟩ := h
  generalize hShape : books.shape = shape at built
  cases built with
  | @region _ _ under frame _ below isFree hEntry isExplicit =>
      have hUnder := below.anchored grounded
      have hFrames : books.shape.frames = frame :: under.frames := by rw [hShape]
      have hRecords : books.shape.records = [] ++ under.records := by rw [hShape]; rfl
      refine (ends_leave represents (by rw [hShape])
        (by rw [dropOwn_of_explicit _ isExplicit, hShape]) (by rw [hShape])
        hFrames hRecords hEntry hUnder fun hSome => hMode (isFlying ▸ hSome)).imp
          fun _ after hAfter => ?_
      refine ⟨_, hAfter, below.mono (Nat.le_of_lt isFree), grounded, ?_, by
        simpa using isFlying, ?_⟩
      · intro record hMem
        obtain ⟨old, _, rfl⟩ := Option.map_eq_some_iff.1 (by simpa using hMem)
        exact Record.reachesAbove_settle _ _ _
      · rw [hShape] at parks
        exact parks

/-- So can a protected region, in whatever phase it is. -/
theorem keeps_leave_protecting {visit : Visit} {phase : Phase} {unwinding : Bool}
    (h : Keeps base floor context (.protecting visit phase :: ledger)
      flying parked books)
    (hMode : flying = true → unwinding = true) :
    Ends (leave visit unwinding context)
      (fun _ after => ∃ books, Keeps base floor after ledger flying parked books)
        fun _ => False := by
  obtain ⟨represents, built, grounded, anchored, isFlying, parks⟩ := h
  generalize hShape : books.shape = shape at built
  cases built with
  | @protecting _ _ under frame _ _ caught below isFree hEntry isProtected hCaught
      hAnchored =>
      have hUnder := below.anchored grounded
      have hDispatch := dropOwn_marks phase isProtected (below.owner_lt grounded)
      have hFrames : books.shape.frames = frame :: under.frames := by rw [hShape]
      have hRecords : books.shape.records = caught.toList ++ under.records := by
        rw [hShape]
      refine (ends_leave represents (by rw [hShape]) (by rw [hShape]; exact hDispatch)
        (by rw [hShape]) hFrames hRecords
        hEntry hUnder fun hSome => hMode (isFlying ▸ hSome)).imp fun _ after hAfter =>
          ?_
      refine ⟨_, hAfter, below.mono (Nat.le_of_lt isFree), grounded, ?_, by
        simpa using isFlying, ?_⟩
      · intro record hMem
        obtain ⟨old, _, rfl⟩ := Option.map_eq_some_iff.1 (by simpa using hMem)
        exact Record.reachesAbove_settle _ _ _
      · rw [hShape] at parks
        simpa using parks

/-- An explicit region that is abandoned is off the ledger as well. The only failure is
that no region is there to report it. -/
theorem keeps_abandon {visit : Visit}
    (h : Keeps base floor context (.region visit :: ledger) flying parked books) :
    Ends (abandon visit context)
      (fun _ after => ∃ books, Keeps base floor after ledger false parked books)
      fun error => error = .corrupted (.escapeUnreported visit.site) := by
  obtain ⟨represents, built, grounded, anchored, isFlying, parks⟩ := h
  generalize hShape : books.shape = shape at built
  cases built with
  | @region _ _ under frame _ below isFree hEntry isExplicit =>
      have hRegions : under.regions <:+ books.shape.regions := by
        rw [hShape]; exact List.suffix_cons _ _
      have hFrames : under.frames <:+ books.shape.frames := by
        rw [hShape]; exact List.suffix_cons _ _
      refine (ends_abandon represents hRegions (by simp [hShape]) (by simp [hShape])
        hFrames (by simp [hShape]) hEntry
        (below.anchored grounded)).mono (fun _ after hAfter => ?_) fun _ hError =>
          hError.2
      obtain ⟨owner, _, hAfter⟩ := hAfter
      refine ⟨_, hAfter, below.mono (Nat.le_of_lt isFree), grounded, by simp, rfl, ?_⟩
      rw [hShape] at parks
      exact parks

/-! ## Exceptions -/

/-- A protected region whose body a raise has left catches what is in flight, and goes
on to its clauses with it. -/
theorem keeps_catchInFlight {visit : Visit}
    (h : Keeps base floor context (.protecting visit .body :: ledger)
      flying parked books) :
    Ends (catchInFlight visit context)
      (fun exception after => flying = true ∧ ∃ books,
        Keeps base floor after (.protecting visit (.clauses exception) :: ledger)
          false parked books)
      fun error => flying = false ∧ error = .corrupted (.noRecord visit.site) := by
  obtain ⟨represents, built, grounded, anchored, isFlying, parks⟩ := h
  generalize hShape : books.shape = shape at built
  cases built with
  | @protecting _ _ under frame _ _ caught below isFree hEntry isProtected hCaught
      hAnchored =>
      cases hCaught
      refine (ends_catchInFlight represents (by rw [hShape])).mono
        (fun exception after hAfter => ?_) fun _ hError =>
        ⟨by simpa [hError.1] using isFlying.symm, hError.2⟩
      obtain ⟨record, hFlight, rfl, hAfter⟩ := hAfter
      refine ⟨by
        rw [← isFlying, hFlight]; rfl, _, hAfter, ?_, grounded, by simp, rfl, ?_⟩
      · rw [hShape] at anchored ⊢
        exact .protecting below isFree hEntry isProtected
          (.clauses (tellsOf_against record _)) fun other hMem => by
          cases hMem
          exact anchored record hFlight
      · rw [hShape] at parks
        simpa [hShape] using parks

/-- A region whose body has returned either has nothing to report, and stays as it is,
or has an exception raised in its name and goes on to its clauses with that one. -/
theorem keeps_claimEscape {slots : Slots} {visit : Visit}
    (h : Keeps base floor context (.protecting visit .body :: ledger)
      false parked books) :
    Ends (claimEscape slots visit context)
      (fun answer after => ∃ books,
        (answer = none ∧ Keeps base floor after (.protecting visit .body :: ledger)
          false parked books) ∨
        ∃ exception, answer = some exception ∧
          Keeps base floor after (.protecting visit (.clauses exception) :: ledger)
            false parked books)
      NoRoom := by
  have hFlight := h.landed
  obtain ⟨represents, built, grounded, anchored, isFlying, parks⟩ := h
  generalize hShape : books.shape = shape at built
  have built' := built
  cases built with
  | @protecting _ _ under frame _ _ caught below isFree hEntry isProtected hCaught
      hAnchored =>
      cases hCaught
      refine (ends_claimEscape represents hFlight (by rw [hShape])).imp
        fun answer after hAfter => ?_
      obtain ⟨rfl, _, hAfter⟩ | ⟨escape, _, _, rfl, hAfter⟩ := hAfter
      · exact ⟨books,
          .inl ⟨rfl, hAfter, hShape ▸ built', grounded, anchored, isFlying, parks⟩⟩
      · refine ⟨_, .inr ⟨_, rfl, hAfter, ?_, grounded, by simp, rfl, ?_⟩⟩
        · rw [hShape]
          exact .protecting below isFree hEntry isProtected
            (.clauses (tellsOf_against (books.escapeRecord slots escape) _))
              fun other hMem => by
              cases hMem
              simp [Books.escapeRecord, Record.reachesAbove, hShape]
        · rw [hShape] at parks
          simpa [hShape] using parks

/-- A region with an exception in hand goes on to a handler. -/
theorem keeps_beginHandling {visit : Visit} {exception : Exception}
    (h : Keeps base floor context (.protecting visit (.clauses exception) :: ledger)
      flying parked books) :
    Ends (beginHandling visit context)
      (fun _ after => ∃ books,
        Keeps base floor after (.protecting visit (.handler exception) :: ledger)
          flying parked books)
      fun _ => False := by
  obtain ⟨represents, built, grounded, anchored, isFlying, parks⟩ := h
  generalize hShape : books.shape = shape at built
  cases built with
  | @protecting _ _ under frame _ _ caught below isFree hEntry isProtected hCaught
      hAnchored =>
      cases hCaught with
      | clauses tells =>
          have hDispatch :
              books.shape.dispatch = .region visit.id :: under.dispatch := by
              rw [hShape]; rfl
          refine (ends_beginHandling represents (by rw [hShape]) hDispatch).imp
            fun _ after hAfter => ?_
          refine ⟨_, hAfter, ?_, grounded, ?_, isFlying, ?_⟩
          · rw [hShape]
            exact .protecting below isFree hEntry isProtected (.handler tells) hAnchored
          · rw [hShape] at anchored ⊢
            exact anchored
          · rw [hShape] at parks
            exact parks

/-- A raise adds a record that is in flight, and leaves the ledger alone. -/
theorem keeps_raise {table : KindTable} {kind : Kind} {site : Site} {written : String}
    (h : Keeps base floor context ledger false parked books) :
    Ends (raise table kind site written context)
      (fun answer after => answer = none → ∃ books,
        Keeps base floor after ledger true parked books) NoRoom := by
  refine (ends_raise h.represents h.landed).imp fun answer after hAfter hNone => ?_
  obtain ⟨_, _, hAfter⟩ | ⟨_, hSome⟩ := hAfter
  · refine ⟨_, hAfter, h.built, h.grounded, ?_, rfl, h.parks⟩
    intro record hMem
    cases hMem
    simp [Books.raiseRecord, Record.reachesAbove]
  · cases hNone.symm.trans hSome

/-- So does an exception that is sent on. -/
theorem keeps_forward {exception : Exception}
    (h : Keeps base floor context ledger false parked books) :
    Ends (forward exception context)
      (fun answer after => answer = none → ∃ books,
        Keeps base floor after ledger true parked books) NoRoom := by
  refine (ends_forward h.represents h.landed).imp fun answer after hAfter hNone => ?_
  obtain ⟨_, _, hAfter⟩ | ⟨_, hSome⟩ := hAfter
  · refine ⟨_, hAfter, h.built, h.grounded, ?_, rfl, h.parks⟩
    intro record hMem
    cases hMem
    rfl
  · cases hNone.symm.trans hSome

/-! ## Guard scopes -/

/-- A guard scope that gets its mark is put on the ledger. -/
theorem keeps_openScope {site : Site}
    (h : Keeps base floor context ledger flying parked books) :
    Ends (openScope site context)
      (fun mark after => ∃ books,
        Keeps base floor after (.scope mark :: ledger) flying parked books) NoRoom := by
  refine (ends_openScope h.represents).imp fun mark after hAfter => ?_
  obtain ⟨rfl, hAfter⟩ := hAfter
  exact ⟨_, hAfter, .scope h.built (Nat.lt_succ_self _), h.grounded, h.anchored,
    h.isFlying, h.parks⟩

/-- The innermost scope can always give up its mark. -/
theorem keeps_closeScope {mark : Nat}
    (h : Keeps base floor context (.scope mark :: ledger) flying parked books) :
    Ends (closeScope mark context)
      (fun _ after => ∃ books, Keeps base floor after ledger flying parked books)
        fun _ => False := by
  obtain ⟨represents, built, grounded, anchored, isFlying, parks⟩ := h
  generalize hShape : books.shape = shape at built
  cases built with
  | @scope _ _ _ under site below isFree =>
      refine (ends_closeScope represents (by rw [hShape])).imp fun _ after hAfter => ?_
      refine ⟨_, hAfter, ?_, grounded, ?_, isFlying, ?_⟩
      · rw [hShape]
        exact below.mono (Nat.le_of_lt isFree)
      · rw [hShape] at anchored ⊢
        exact anchored
      · rw [hShape] at parks
        simpa [hShape] using parks

/-- A guard body begins: it is put on the ledger, and what was in flight is parked. -/
theorem keeps_shield {mark : Nat}
    (h : Keeps base floor context (.scope mark :: ledger) flying parked books) :
    Ends (shield mark context)
      (fun _ after =>
        Keeps base floor after (.guardBody mark :: .scope mark :: ledger)
          false (flying :: parked) (books.shielded mark))
      NoRoom := by
  refine (ends_shield h.represents).imp fun _ after hAfter => ?_
  refine ⟨hAfter, .guardBody h.built h.anchored, h.grounded, by
    simp [Books.shielded], rfl, ?_⟩
  simp [Books.shielded, h.parks, h.isFlying]

/-- A guard body has ended: what it parked is in flight again. -/
theorem keeps_popShield {mark : Nat}
    (h : Keeps base floor context (.guardBody mark :: ledger) false parked books) :
    Ends (popDispatch mark .guard context)
      (fun _ after => ∃ flying rest books, parked = flying :: rest ∧
        Keeps base floor after ledger flying rest books)
      fun _ => False := by
  have hFlight := h.landed
  obtain ⟨represents, built, grounded, anchored, isFlying, parks⟩ := h
  generalize hShape : books.shape = shape at built
  cases built with
  | @guardBody _ _ ledger under held below hAnchored =>
      have hDispatch :
          books.shape.dispatch = .guard mark (held.map fun _ => under.records.length) ::
          under.dispatch := by
        rw [hShape]
      have hRecords : books.shape.records = held.toList ++ under.records := by
        rw [hShape]
      refine (ends_popShield represents hFlight hDispatch hRecords).imp
        fun _ after hAfter => ?_
      rw [hShape] at parks
      refine ⟨held.isSome, parkings under.dispatch, _, by
        simpa using parks.symm, hAfter, ?_, grounded, ?_, rfl, rfl⟩
      · rw [hShape]
        exact below
      · rw [hShape]
        exact hAnchored

/-! ## Traced calls -/

/-- A traced call is put on the ledger with the depths it remembers. -/
theorem keeps_enterCall {site : Site}
    (h : Keeps base floor context ledger false parked books) :
    Ends (enterCall site context)
      (fun entry after => ∃ books,
        Keeps base floor after (.call entry :: ledger) false parked books) NoRoom := by
  have hFlight := h.landed
  refine (ends_enterCall h.represents hFlight).imp fun entry after hAfter => ?_
  exact ⟨_, hAfter.2, .call h.built hAfter.1, h.grounded, by
    simp [hFlight], by simp [hFlight], h.parks⟩

/-- A traced call that is innermost can be left, unless it takes a raise on its way for
a return. -/
theorem keeps_leaveCall {entry : Depths} {unwinding : Bool}
    (h : Keeps base floor context (.call entry :: ledger) flying parked books) :
    Ends (leaveCall entry unwinding context)
      (fun _ after => ∃ books, Keeps base floor after ledger flying parked books)
      fun _ => unwinding = false ∧ flying = true := by
  obtain ⟨represents, built, grounded, anchored, isFlying, parks⟩ := h
  generalize hShape : books.shape = shape at built
  cases built with
  | @call _ _ under frame _ below hEntry =>
      have hFrames : books.shape.frames = frame :: under.frames := by rw [hShape]
      refine (ends_leaveCall represents hFrames
        (by rw [hShape]; exact hEntry)
          (by rw [hShape]; exact below.anchored grounded)).mono
        (fun _ after hAfter => ?_) fun _ hError => ⟨hError.1, isFlying ▸ hError.2⟩
      refine ⟨_, hAfter, ?_, grounded, ?_, by simpa using isFlying, ?_⟩
      · rw [hShape]
        exact below
      · intro record hMem
        obtain ⟨old, _, rfl⟩ := Option.map_eq_some_iff.1 (by simpa using hMem)
        exact Record.reachesAbove_settle _ _ _
      · rw [hShape] at parks
        simpa [hShape] using parks

/-! ## Annotations -/

/-- A base that the run above it does not touch: there is nothing in it, or a protected
region lies on it.

A region that lies open at the base keeps its own frame, and that is the frame that an
annotation goes to. -/
def Untouched (base : Shape) (floor : Nat) (ledger : List Extent) : Prop :=
  (base = {} ∧ floor = 0) ∨ ∃ visit phase, .protecting visit phase ∈ ledger

private theorem Built.annotate {next : Nat} {shape : Shape} (f : Frame → Frame)
    (h : Built base floor next ledger shape) (hBase : Untouched base floor ledger) :
    Built base floor next ledger { shape with frames := shape.frames.modifyHead f
      } := by
  induction h with
  | base isFree =>
      obtain ⟨rfl, rfl⟩ | ⟨_, _, hMem⟩ := hBase
      · exact .base isFree
      · cases hMem
  | thread isFree =>
      obtain ⟨rfl, rfl⟩ | ⟨_, _, hMem⟩ := hBase
      · exact .thread isFree
      · simp at hMem
  | call below hEntry ih => exact .call below hEntry
  | region below isFree hEntry isExplicit ih =>
      exact .region below isFree hEntry isExplicit
  | scope below isFree ih => exact .scope (ih (by simpa [Untouched] using hBase)) isFree
  | guardBody below hAnchored ih =>
      exact .guardBody (ih (by simpa [Untouched] using hBase))
        (by simpa using hAnchored)
  | protecting below isFree hEntry isProtected hCaught hAnchored ih =>
      exact .protecting below isFree hEntry isProtected hCaught hAnchored

/-- A text at the innermost frame changes nothing of what a ledger accounts for. -/
theorem keeps_annotate {text : String}
    (h : Keeps base floor context ledger flying parked books)
    (hBase : Untouched base floor ledger) :
    ∃ books, Keeps base floor { context with frames := (context.frames.annotate text).2
      } ledger flying parked books :=
  ⟨{ books with
      shape.frames :=
        books.shape.frames.modifyHead fun frame => { frame with annotation := text } },
    { h.represents with
      frames := by
        rw [← h.represents.frames]
        rfl },
    h.built.annotate _ hBase, h.grounded, by
      simpa using h.anchored, h.isFlying, h.parks⟩

end Unwinding
