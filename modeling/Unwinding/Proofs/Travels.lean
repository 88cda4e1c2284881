import Unwinding.Proofs.Newest

/-!
# Exceptions on their way

One record may be in flight, and every guard body that runs may park another. What
matters of these places is what was raised: `Entries.travels` lists it, first the
exception in flight and then those that guard bodies hold up, the innermost body first.
The places move whenever a region gives back records, but in a run that closes in turn
the list does not change with them: a raise puts an exception at its head, a region that
catches it takes it away, a guard body that begins holds it up, and that is all.

## Main results

* `Deed.Turns.travels` — what a deed does to the exceptions on their way.
* `Laden.travels_step` — so does a step.
-/

namespace Unwinding

open Context Pile

/-! ## The list -/

/-- What the records say of their raises, oldest first. -/
def Entries.meanings (entries : Entries) : List Raised :=
  entries.records.map fun record => (record.against entries.frames).raised

/-- What was raised, for each place of a record: nothing if there is no record. -/
def raisedAt (known : List Raised) (places : List (Option Nat)) :
    List (Option Raised) :=
  places.map fun place => place.bind fun index => known[index]?

/-- The exception in flight and those that guard bodies hold up, the innermost one
first. -/
def Entries.travels (entries : Entries) : List (Option Raised) :=
  raisedAt entries.meanings (entries.inFlight :: entries.parked)

namespace Deed

/-- What a deed does to the exceptions on their way, in some calls. -/
def sends (sites : List Site) (travels : List (Option Raised)) :
    Deed → List (Option Raised)
  | .opens => [none]
  | .closes => [none]
  | .raises kind message origin => some ⟨kind, message, origin, sites⟩ :: travels.tail
  | .forwards exception => some exception.raised :: travels.tail
  | .catches _ _ => none :: travels.tail
  | .reports _ _ => none :: travels.tail
  | .shields _ => none :: travels
  | .unshields _ => travels.tail
  | _ => travels

/-- A deed that lets go of the exception in flight. -/
def LetsGo : Deed → Prop
  | .leaves _ unwinding _ => unwinding = false
  | .abandons _ => True
  | _ => False

end Deed

section

variable {known more : List Raised} {places : List (Option Nat)} {bound depth : Nat}

/-- Places below a bound. -/
def Below (bound : Nat) (places : List (Option Nat)) : Prop :=
  ∀ index, some index ∈ places → index < bound

theorem raisedAt_cons (known : List Raised) (place : Option Nat)
    (places : List (Option Nat)) :
    raisedAt known (place :: places) = (place.bind fun index => known[index]?) ::
      raisedAt known places := rfl

private theorem raisedAt_congr {other : List Raised}
    (h : ∀ index, some index ∈ places → other[index]? = known[index]?) :
    raisedAt other places = raisedAt known places := by
  refine List.map_congr_left fun place hMem => ?_
  cases place with
  | none => rfl
  | some index => exact h index hMem

/-- Records that are put on top change nothing. -/
theorem raisedAt_append (h : Below known.length places) :
    raisedAt (known ++ more) places = raisedAt known places :=
  raisedAt_congr fun _ hMem => List.getElem?_append_left (h _ hMem)

/-- Nor do records that are released above all places. -/
theorem raisedAt_released {inFlight : Option Nat} {keep : Bool} (h : Below depth places)
    (hLong : depth ≤ known.length) :
    raisedAt (released inFlight depth keep known) places = raisedAt known places := by
  refine raisedAt_congr fun index hMem => ?_
  have hLow := h index hMem
  have hTake : (released inFlight depth keep known).take depth = known.take depth :=
    take_released (Nat.le_refl depth) hLong
  rw [← List.getElem?_take_of_lt hLow, hTake, List.getElem?_take_of_lt hLow]

end

/-! ## Places -/

section

variable {ledger : List Extent} {entries : Entries} {parked : List (Nat × Option Nat)}
    {shelters : List Bool} {floor : Nat}
  {flying : Bool} {pile : Pile}

/-- What guard bodies park are records that are there. -/
theorem Piled.parked_below (h : Piled ledger parked shelters floor pile) :
    Below pile.length (parked.map Prod.snd) := by
  induction h with
  | thread bare => exact fun _ hMem => nomatch hMem
  | call below ih => exact ih
  | scope below ih => exact ih
  | bare below idle ih =>
      intro index hMem
      rcases List.mem_cons.1 hMem with hPlace | hOuter
      · exact (idle index hPlace.symm).lt_length
      · exact ih index hOuter
  | shelters below newest isOwn ih =>
      intro index hMem
      rcases List.mem_cons.1 hMem with hPlace | hOuter
      · cases hPlace
        exact newest.lt_length
      · exact List.length_set ▸ ih index hOuter
  | region below isLow isHigh bare ih =>
      exact fun index hMem => Nat.lt_of_lt_of_le (ih index hMem)
        (List.length_take_le' _ _)
  | protecting below isLow isHigh own ih =>
      exact fun index hMem => Nat.lt_of_lt_of_le (ih index hMem)
        (List.length_take_le' _ _)

/-- A pile like that of some entries. -/
theorem Heaped.exists_piled (h : Heaped ledger entries flying shelters pile) :
    ∃ floor other, other.length = entries.records.length ∧
      Piled ledger (parkings? entries.dispatch) shelters floor other := by
  cases h with
  | rests counts piled idle => exact ⟨_, _, counts, piled⟩
  | flies counts piled inFlight newest isOwn =>
      exact ⟨_, _, (List.length_set).trans counts, piled⟩

private theorem Heaped.parked_below (h : Heaped ledger entries flying shelters pile) :
    Below entries.records.length entries.parked := by
  obtain ⟨floor, other, hLength, hPiled⟩ := h.exists_piled
  exact hLength ▸ hPiled.parked_below

/-- The record in flight is there. -/
theorem Heaped.inFlight_below (h : Heaped ledger entries flying shelters pile) :
    Below entries.records.length [entries.inFlight] := by
  intro index hMem
  have hPlace := (List.mem_singleton.1 hMem).symm
  cases h with
  | rests counts piled idle => exact counts ▸ (idle index hPlace).lt_length
  | flies counts piled inFlight newest isOwn =>
      cases inFlight.symm.trans hPlace
      exact counts ▸ newest.lt_length

/-- What guard bodies park lies below what a region found that is left inside them. -/
theorem Heaped.parked_below_left {visit : Visit} {unwinding : Bool} {fate : Fate}
    (h : Heaped ledger entries flying shelters pile)
    (hFits : (Deed.leaves visit unwinding fate).Fits ledger) :
    visit.entry.exceptions ≤ entries.records.length ∧
      Below visit.entry.exceptions entries.parked := by
  obtain ⟨floor, other, hLength, hPiled⟩ := h.exists_piled
  obtain ⟨-, hLow, old, -, hBelow⟩ := hPiled.of_left hFits
  refine ⟨hLength ▸ hLow,
    fun index hMem => Nat.lt_of_lt_of_le (hBelow.parked_below index hMem)
    (List.length_take_le _ _)⟩

end

/-! ## One deed -/

section

variable {ledger : List Extent} {before after : Entries} {deed : Deed} {known : Lineage}
    {shelters : List Bool} {flying : Bool}
  {pile : Pile}

private theorem travels_of_tells {raised : List Raised} (h : before.Tells raised) :
    before.travels = raisedAt raised (before.inFlight :: before.parked) := by
  rw [Entries.travels, Entries.meanings, h.means]

/-- What a region that is left gives back is no exception on its way. -/
theorem Deed.Turns.travels_released {visit : Visit} {keep : Bool} (fate : Fate)
    (hTells : before.Tells known.records)
    (hTold :
      after.Tells (released before.inFlight visit.entry.exceptions keep known.records))
    (hPlace : after.inFlight = flightAfter before.inFlight visit.entry.exceptions keep)
    (hParked : after.parked = before.parked)
    (hHeaped : Heaped ledger before flying shelters pile)
    (hFits : (Deed.leaves visit keep fate).Fits ledger)
    (hLands : keep = false → before.inFlight = none) :
    after.travels = before.travels := by
  obtain ⟨hLow, hParkedBelow⟩ := hHeaped.parked_below_left hFits
  have hLength : known.records.length = before.records.length := by
    rw [← hTells.means, List.length_map]
  rw [travels_of_tells hTold, travels_of_tells hTells, hPlace, hParked, raisedAt_cons,
    raisedAt_cons, raisedAt_released hParkedBelow (hLength ▸ hLow)]
  congr 1
  cases hFlight : before.inFlight with
  | none => rfl
  | some index =>
      cases keep with
      | false => cases hFlight.symm.trans (hLands rfl)
      | true =>
          have hThere : index < known.records.length :=
            hLength ▸ hHeaped.inFlight_below index
              (by rw [hFlight]; exact List.mem_cons_self)
          obtain ⟨place, hAfter, hFound⟩ : ∃ place,
            flightAfter (some index) visit.entry.exceptions true = some place ∧
              (released (some index) visit.entry.exceptions true
                known.records)[place]? = some known.records[index] :=
            getElem?_released (List.getElem?_eq_getElem hThere)
          rw [hAfter, Option.bind_some, hFound, Option.bind_some,
            List.getElem?_eq_getElem hThere]

/-- What a deed does to the exceptions on their way. One that is raised or forwarded
gets a record on top, and is sent on its way. -/
theorem Deed.Turns.travels (h : deed.Turns before after)
    (hTells : before.Tells known.records)
    (hHeld : ∀ exception, deed = .forwards exception →
      known.held = some exception.raised)
    (hNested : Nested .thread ledger before) (hFits : deed.Fits ledger)
    (hHeaped : Heaped ledger before flying shelters pile)
    (hLands : deed.LetsGo → before.inFlight = none) :
    after.travels = deed.sends before.sites before.travels := by
  have hTold := h.tells hTells hHeld
  have hLength : known.records.length = before.records.length := by
    rw [← hTells.means, List.length_map]
  have hParked : Below known.records.length before.parked :=
    hLength ▸ hHeaped.parked_below
  have raises {raised : Raised} (hTold : after.Tells (known.records ++ [raised]))
    (hPlace : after.inFlight = some before.records.length)
    (hDispatch : after.parked = before.parked) : after.travels =
        some raised :: before.travels.tail := by
    rw [travels_of_tells hTold, travels_of_tells hTells, hPlace, hDispatch,
      raisedAt_cons, raisedAt_cons, raisedAt_append hParked, ← hLength]
    simp
  cases h with
  | quiet isQuiet => cases deed <;> first | rfl | exact isQuiet.elim
  | annotates => exact (travels_of_tells hTold).trans (travels_of_tells hTells).symm
  | @enters _ visit state number measured =>
      rw [travels_of_tells hTold]
      refine Eq.trans ?_ (travels_of_tells hTells).symm
      rw [Entries.parked]
      dsimp only
      split <;> rfl
  | @leaves _ visit unwinding fate frame frames isFramed count =>
      have hSame := congrArg (List.map Prod.snd) (hNested.parkings_leave fate hFits)
      exact travels_released fate hTells hTold rfl hSame hHeaped hFits hLands
  | @abandons _ visit above below isFramed count =>
      have hSame : (before.abandon visit below).parked = before.parked := by
        rw [Entries.parked, hNested.dispatch_abandon hFits]
        rfl
      exact travels_released .nothing hTells hTold rfl hSame hHeaped (.inl hFits)
        fun _ => hLands trivial
  | catches innermost inFlight found =>
      rw [travels_of_tells hTold, Deed.sends, travels_of_tells hTells]
      rfl
  | reports innermost =>
      rw [travels_of_tells hTold, Deed.sends, travels_of_tells hTells]
      exact congrArg (List.cons none) (raisedAt_append hParked)
  | handles innermost marked own =>
      refine Eq.trans ?_ (travels_of_tells hTells).symm
      rw [travels_of_tells hTold, Entries.parked, Entries.parked,
        hNested.parkings_handle hFits marked]
      rfl
  | raises isCaught => exact raises hTold rfl rfl
  | @forwards _ exception isCaught =>
      refine raises ?_ rfl rfl
      change Entries.Tells _ (known.records ++ known.held.toList) at hTold
      rw [hHeld exception rfl] at hTold
      exact hTold
  | opensScope number =>
      exact (travels_of_tells hTold).trans (travels_of_tells hTells).symm
  | shields =>
      rw [travels_of_tells hTold, Deed.sends, travels_of_tells hTells]
      rfl
  | unshields marked =>
      rw [travels_of_tells hTold, Deed.sends, travels_of_tells hTells, Entries.parked,
        Entries.parked, marked]
      rfl
  | entersCall measured =>
      exact (travels_of_tells hTold).trans (travels_of_tells hTells).symm
  | leavesCall isFramed count =>
      exact (travels_of_tells hTold).trans (travels_of_tells hTells).symm

/-- A region that catches an exception catches the one in flight. -/
theorem Deed.Turns.caught {visit : Visit} {exception : Exception}
    (h : (Deed.catches visit exception).Turns before after) :
    before.travels.head? = some (some exception.raised) := by
  cases h with
  | quiet isQuiet => exact isQuiet.elim
  | catches innermost inFlight found =>
      rw [Entries.travels, inFlight, raisedAt_cons, Option.bind_some, Entries.meanings,
        List.getElem?_map, found]
      rfl

end

/-! ## One step -/

section

variable {ν : Type} {m : Machine ν} {ledger : List Extent} {pile : Pile}
    {known : Lineage}

/-- The exceptions on their way; without a context, there are none. -/
def Machine.travels (m : Machine ν) : List (Option Raised) :=
  match m.entries? with
  | some entries => entries.travels
  | none => [none]

/-- The calls in progress, oldest first. -/
def Machine.sites (m : Machine ν) : List Site :=
  (m.entries?.getD .empty).sites

/-- What travels in a machine is what travels in the entries of its context. -/
theorem Machine.travels_of_entries {entries : Entries} (h : m.entries? = some entries) :
    m.travels = entries.travels := by
  rw [travels, h]

/-- Where no exception is on its way, none is in flight. -/
theorem Laden.landed (h : Laden m ledger pile known) {entries : Entries}
    (hEntries : m.entries? = some entries) (hNone : m.travels.head? = some none) :
    entries.inFlight = none := by
  obtain ⟨flying, shelters, -, hBurden⟩ := h.burden
  rw [hEntries] at hBurden
  rw [Machine.travels_of_entries hEntries] at hNone
  cases hBurden with
  | heaped hHeaped =>
      cases hFlight : entries.inFlight with
      | none => rfl
      | some index =>
          have hThere : index < entries.meanings.length := by
            rw [Entries.meanings, List.length_map]
            exact hHeaped.inFlight_below index
              (by rw [hFlight]; exact List.mem_cons_self)
          rw [Entries.travels, hFlight, raisedAt_cons, Option.bind_some,
            List.getElem?_eq_getElem hThere] at hNone
          cases hNone

/-- A step does to the exceptions on their way what its deed does. -/
theorem Laden.travels_step (h : Laden m ledger pile known) (hTurn : m.InTurn ledger)
    (hGoesOn : m.step.poisoned = false)
    (hLands : m.deed.LetsGo → m.travels.head? = some none) :
    m.step.travels = m.deed.sends m.sites m.travels := by
  have hStands := h.footing.stands
  have hFits := hStands.fits hTurn
  obtain ⟨flying, shelters, -, hBurden⟩ := h.burden
  have hActs := (Machine.did_step hStands.clear hGoesOn).acts
  generalize hBefore : m.entries? = before at hActs hBurden
  generalize hAfter : m.step.entries? = after at hActs
  generalize hDeed : m.deed = deed at hActs hFits hLands
  cases hActs with
  | @turns _ before after hTurns =>
      obtain ⟨context, hContext, rfl⟩ := Machine.exists_of_entries? hBefore
      cases hBurden with
      | heaped hHeaped =>
          rw [Machine.travels_of_entries hAfter, Machine.travels_of_entries hBefore,
            Machine.sites, hBefore]
          refine hTurns.travels (h.remembers.records context hContext)
            (fun exception hForwards => ?_)
            (hStands.nested context hContext) hFits hHeaped fun hLetsGo =>
              h.landed hBefore (hLands hLetsGo)
          exact h.remembers.spent (by rw [hDeed, hForwards]; rfl)
  | quiet isQuiet =>
      rw [Machine.travels, Machine.travels, hAfter, hBefore]
      cases deed <;> first | rfl | exact isQuiet.elim
  | opens =>
      rw [Machine.travels, hAfter]
      rfl
  | closes =>
      rw [Machine.travels, hAfter]
      rfl

/-- What a region catches is the exception on its way. -/
theorem Machine.caught_of_deed {visit : Visit} {exception : Exception}
    (hClear : m.poisoned = false) (hGoesOn : m.step.poisoned = false)
    (hDeed : m.deed = .catches visit exception) :
    m.travels.head? = some (some exception.raised) := by
  have hActs := (Machine.did_step hClear hGoesOn).acts
  rw [hDeed] at hActs
  generalize hBefore : m.entries? = before at hActs
  generalize m.step.entries? = after at hActs
  cases hActs with
  | turns hTurns =>
      rw [Machine.travels_of_entries hBefore]
      exact hTurns.caught
  | quiet isQuiet => exact isQuiet.elim

end

end Unwinding
