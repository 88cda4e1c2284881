import Unwinding.Stack.Rack
import Mathlib.Data.Multiset.MapFold

/-!
# Nodes are kept

A rack moves its nodes between two lists. `Serves` says once what a request can do to a
rack: one case for each way in which it may end, with what has been moved by then.
Everything else is read off these cases. A request that fails leaves the rack as it is;
what comes in and what goes out is what the caller gives and takes, and the nodes that
are made; and the lists are those that `Stack` has for the same requests.

Which node is which cannot be told from its contents once a caller has written to it. So
the laws speak of what is seen of the nodes (`view`), for any way to look at them that
the caller's writes do not disturb: if nothing is written the contents themselves, and
otherwise a label that the writes leave alone.

## Main results

* `serves_work` : what each request can do.
* `perform_stack` : a rack and a stack answer the same and hold the same.
* `census_after`, `census_serve` : what comes in and what goes out, for one request and
  for all of them.
* `refill_truncate` : what was cut off comes back node by node, in the order in which it
  lay.
* `rack_conserves` : the nodes of a rack under any requests.
-/

namespace Unwinding

namespace Rack

variable {α β : Type} {rack : Rack α} {request : Request α}

/-! ## What requests do -/

/-- The capacity is asked for first. -/
def Request.Pushes : Request α → Prop
  | .allocSpare | .alloc _ | .push _ => True
  | _ => False

/-- An entry is needed. -/
def Request.Pops : Request α → Prop
  | .pop | .take => True
  | _ => False

/-- The outcomes of a request. -/
inductive Serves (rack : Rack α) : Request α → EStateM.Result Error (Rack α) (Reply α) →
    Prop
  | full {request : Request α} (pushes : request.Pushes)
    (isFull : rack.limit ≤ rack.used.length) :
      Serves rack request (.error (.capacityExceeded rack.name rack.limit) rack)
  | exhausted (hasRoom : rack.used.length < rack.limit) (isBare : rack.unused = []) :
      Serves rack .allocSpare (.error (.exhausted rack.name) rack)
  | underflow {request : Request α} (pops : request.Pops) (isEmpty : rack.used = []) :
      Serves rack request (.error (.stackUnderflow rack.name) rack)
  | spare {node : α} {unused : List α} (hasRoom : rack.used.length < rack.limit)
      (isNext : rack.unused = node :: unused) :
      Serves rack .allocSpare
        (.ok (.node node) { rack with used := node :: rack.used, unused })
  | recycled {fresh node : α} {unused : List α}
      (hasRoom : rack.used.length < rack.limit)
      (isNext : rack.unused = node :: unused) :
      Serves rack (.alloc fresh)
        (.ok (.allotted node false) { rack with used := node :: rack.used, unused })
  | made {fresh : α} (hasRoom : rack.used.length < rack.limit)
      (isBare : rack.unused = []) :
      Serves rack (.alloc fresh)
        (.ok (.allotted fresh true)
        { rack with used := fresh :: rack.used, made := rack.made + 1 })
  | pushed {node : α} (hasRoom : rack.used.length < rack.limit) :
      Serves rack (.push node)
        (.ok (.node node) { rack with used := node :: rack.used })
  | popped {node : α} {used : List α} (isTop : rack.used = node :: used) :
      Serves rack .pop
        (.ok (.node node) { rack with used, unused := node :: rack.unused })
  | taken {node : α} {used : List α} (isTop : rack.used = node :: used) :
      Serves rack .take (.ok (.node node) { rack with used })
  | truncated (depth : Nat) :
      Serves rack (.truncate depth) (.ok (.count (rack.used.length - depth)) { rack with
        used := rack.used.drop (rack.used.length - depth)
        unused := (rack.used.take (rack.used.length - depth)).reverse ++ rack.unused })
  | grown (nodes : List α) :
      Serves rack (.grow nodes)
        (.ok .done { rack with unused := nodes.reverse ++ rack.unused })
  | reserved (count : Nat) (node : α) :
      Serves rack (.reserve count node)
        (.ok .done { rack with unused := List.replicate count node ++ rack.unused })
  | wroteTop (f : α → α) :
      Serves rack (.writeTop f) (.ok .done { rack with used := rack.used.modifyHead f })
  | wroteNext (f : α → α) :
      Serves rack (.writeNext f)
        (.ok .done { rack with unused := rack.unused.modifyHead f })
  | wroteAt {index : Nat} (f : α → α) (isThere : index < rack.used.length) :
      Serves rack (.writeAt index f)
        (.ok .done { rack with used := rack.used.modify (rack.used.length - 1 - index) f
        })
  | wroteNowhere {index : Nat} (f : α → α) (isBeyond : rack.used.length ≤ index) :
      Serves rack (.writeAt index f) (.ok .done rack)
  | wroteAll (f : Nat → α → α) :
      Serves rack (.writeAll f) (.ok .done { rack with used := rack.used.mapIdx f })

/-- Work that looks at the rack goes on with the rack it is at. -/
theorem get_bind (rest : Rack α → Work α β) (rack : Rack α) :
    ((get : Work α (Rack α)) >>= rest) rack = rest rack rack := rfl

private theorem checkCapacity_of_full (h : rack.limit ≤ rack.used.length) :
    checkCapacity rack = .error (.capacityExceeded rack.name rack.limit) rack := by
  unfold checkCapacity
  rw [get_bind, if_pos h]
  rfl

/-- Where there is room, the check of the capacity passes and changes nothing. -/
theorem checkCapacity_of_room (h : rack.used.length < rack.limit) :
    checkCapacity rack = .ok () rack := by
  unfold checkCapacity
  rw [get_bind, if_neg (Nat.not_le.2 h)]
  rfl

/-- The loop moves the topmost nodes, as many as lie above the depth. -/
theorem shed_eq (depth removed : Nat) (used unused : List α) :
    shed depth removed used unused =
      (removed + (used.length - depth), used.drop (used.length - depth),
        (used.take (used.length - depth)).reverse ++ unused) := by
  induction used generalizing removed unused with
  | nil => simp [shed]
  | cons node used ih =>
      unfold shed
      split
      · next hMore =>
          have hCount : (node :: used).length - depth = used.length - depth + 1 := by
            simp only [List.length_cons] at hMore ⊢
            omega
          rw [ih, hCount, List.drop_succ_cons, List.take_succ_cons, List.reverse_cons,
            List.append_assoc, List.singleton_append]
          congr 1
          omega
      · next hFew =>
          have hNone : (node :: used).length - depth = 0 := by omega
          rw [hNone]
          rfl

/-- Donated nodes are handed out in the opposite order. -/
theorem grow_eq (nodes : List α) (rack : Rack α) :
    grow nodes rack = .ok () { rack with unused := nodes.reverse ++ rack.unused } := by
  unfold grow
  induction nodes generalizing rack with
  | nil => rfl
  | cons node nodes ih =>
      change nodes.forM pushUnused { rack with unused := node :: rack.unused } = _
      rw [ih, List.reverse_cons, List.append_assoc]
      rfl

/-- The node that is taken off is the top one. -/
theorem popUsed_of_cons {node : α} {used : List α} (h : rack.used = node :: used) :
    popUsed rack = .ok (some node) { rack with used } := by
  change EStateM.Result.ok (Prod.fst _) _ = _
  rw [h]

private theorem popUsed_of_nil (h : rack.used = []) : popUsed rack = .ok none rack := by
  change EStateM.Result.ok (Prod.fst _) _ = _
  rw [h]

private theorem popUnused_of_cons {node : α} {unused : List α}
    (h : rack.unused = node :: unused) :
    popUnused rack = .ok (some node) { rack with unused } := by
  change EStateM.Result.ok (Prod.fst _) _ = _
  rw [h]

private theorem popUnused_of_nil (h : rack.unused = []) :
    popUnused rack = .ok none rack := by
  change EStateM.Result.ok (Prod.fst _) _ = _
  rw [h]

/-- Every request has one of these outcomes. -/
theorem serves_work (rack : Rack α) (request : Request α) :
    Serves rack request (work request rack) := by
  cases request with
  | allocSpare =>
      rcases Nat.lt_or_ge rack.used.length rack.limit with hRoom | hFull
      · cases hUnused : rack.unused with
        | nil =>
            simp only [work, allocSpare, bind, EStateM.bind,
              checkCapacity_of_room hRoom, popUnused_of_nil hUnused]
            exact .exhausted hRoom hUnused
        | cons node unused =>
            simp only [work, allocSpare, bind, EStateM.bind,
              checkCapacity_of_room hRoom, popUnused_of_cons hUnused]
            exact .spare hRoom hUnused
      · simp only [work, allocSpare, bind, EStateM.bind, checkCapacity_of_full hFull]
        exact .full trivial hFull
  | alloc fresh =>
      rcases Nat.lt_or_ge rack.used.length rack.limit with hRoom | hFull
      · cases hUnused : rack.unused with
        | nil =>
            simp only [work, alloc, bind, EStateM.bind, checkCapacity_of_room hRoom,
              popUnused_of_nil hUnused]
            exact .made hRoom hUnused
        | cons node unused =>
            simp only [work, alloc, bind, EStateM.bind, checkCapacity_of_room hRoom,
              popUnused_of_cons hUnused]
            exact .recycled hRoom hUnused
      · simp only [work, alloc, bind, EStateM.bind, checkCapacity_of_full hFull]
        exact .full trivial hFull
  | push node =>
      rcases Nat.lt_or_ge rack.used.length rack.limit with hRoom | hFull
      · simp only [work, push, bind, EStateM.bind, checkCapacity_of_room hRoom]
        exact .pushed hRoom
      · simp only [work, push, bind, EStateM.bind, checkCapacity_of_full hFull]
        exact .full trivial hFull
  | pop =>
      cases hUsed : rack.used with
      | nil =>
          simp only [work, pop, bind, EStateM.bind, popUsed_of_nil hUsed]
          exact .underflow trivial hUsed
      | cons node used =>
          simp only [work, pop, bind, EStateM.bind, popUsed_of_cons hUsed]
          exact .popped hUsed
  | truncate depth =>
      have hShed := shed_eq depth 0 rack.used rack.unused
      have hWork :
        work (.truncate depth) rack =
          .ok (.count (shed depth 0 rack.used rack.unused).1)
          { rack with
            used := (shed depth 0 rack.used rack.unused).2.1
            unused := (shed depth 0 rack.used rack.unused).2.2 } := rfl
      rw [hWork, hShed, Nat.zero_add]
      exact .truncated depth
  | take =>
      cases hUsed : rack.used with
      | nil =>
          simp only [work, take, bind, EStateM.bind, popUsed_of_nil hUsed]
          exact .underflow trivial hUsed
      | cons node used =>
          simp only [work, take, bind, EStateM.bind, popUsed_of_cons hUsed]
          exact .taken hUsed
  | grow nodes =>
      simp only [work, bind, EStateM.bind, grow_eq]
      exact .grown nodes
  | reserve count node =>
      simp only [work, reserve, bind, EStateM.bind, grow_eq, List.reverse_replicate]
      exact .reserved count node
  | writeTop f => exact .wroteTop f
  | writeNext f => exact .wroteNext f
  | writeAt index f =>
      rcases Nat.lt_or_ge index rack.used.length with hThere | hBeyond
      · have hWork : work (.writeAt index f) rack =
            .ok .done (if index < rack.used.length then
            { rack with used := rack.used.modify (rack.used.length - 1 - index) f } else
            rack) := rfl
        rw [hWork, if_pos hThere]
        exact .wroteAt f hThere
      · have hWork : work (.writeAt index f) rack =
            .ok .done (if index < rack.used.length then
            { rack with used := rack.used.modify (rack.used.length - 1 - index) f } else
            rack) := rfl
        rw [hWork, if_neg (Nat.not_lt.2 hBeyond)]
        exact .wroteNowhere f hBeyond
  | writeAll f => exact .wroteAll f

/-! ## The same as a stack -/

/-- An outcome, without what is left of the rack after an error and without the number
of fresh nodes. -/
def told : EStateM.Result Error (Rack α) (Reply α) → Except Error (Reply α × Stack α)
  | .ok reply left => .ok (reply, left.stack)
  | .error error _ => .error error

private theorem checkCapacity_stack_of_full (h : rack.limit ≤ rack.used.length) :
    rack.stack.checkCapacity = .error (.capacityExceeded rack.name rack.limit) :=
  if_pos h

/-- The stack finds room just where the rack does. -/
theorem checkCapacity_stack_of_room (h : rack.used.length < rack.limit) :
    rack.stack.checkCapacity = .ok () :=
  if_neg (Nat.not_le.2 h)

/-- A rack and the stack of its nodes answer the same, and hold the same afterwards. -/
theorem perform_stack (rack : Rack α) (request : Request α) :
    rack.stack.perform request = told (work request rack) := by
  have hServes := serves_work rack request
  generalize work request rack = outcome at hServes ⊢
  cases hServes with
  | full pushes isFull =>
      have hFull := checkCapacity_stack_of_full isFull
      cases request with
      | allocSpare | alloc fresh | push node =>
          simp only [Stack.perform, Stack.allocSpare, Stack.alloc, Stack.push, hFull]
          rfl
      | _ => exact pushes.elim
  | exhausted hasRoom isBare =>
      simp only [Stack.perform, Stack.allocSpare, checkCapacity_stack_of_room hasRoom]
      obtain ⟨name, limit, used, unused, made⟩ := rack
      cases isBare
      rfl
  | underflow pops isEmpty =>
      obtain ⟨name, limit, used, unused, made⟩ := rack
      cases isEmpty
      cases request with
      | pop | take => rfl
      | _ => exact pops.elim
  | spare hasRoom isNext =>
      simp only [Stack.perform, Stack.allocSpare, checkCapacity_stack_of_room hasRoom]
      obtain ⟨name, limit, used, unused, made⟩ := rack
      cases isNext
      rfl
  | recycled hasRoom isNext =>
      simp only [Stack.perform, Stack.alloc, checkCapacity_stack_of_room hasRoom]
      obtain ⟨name, limit, used, unused, made⟩ := rack
      cases isNext
      rfl
  | made hasRoom isBare =>
      simp only [Stack.perform, Stack.alloc, checkCapacity_stack_of_room hasRoom]
      obtain ⟨name, limit, used, unused, made⟩ := rack
      cases isBare
      rfl
  | pushed hasRoom =>
      simp only [Stack.perform, Stack.push, checkCapacity_stack_of_room hasRoom]
      rfl
  | popped isTop | taken isTop =>
      obtain ⟨name, limit, used, unused, made⟩ := rack
      cases isTop
      rfl
  | truncated depth =>
      refine congrArg Except.ok
        (Prod.ext (congrArg Reply.count ?_) (Stack.ext rfl rfl rfl rfl))
      change rack.used.length - min depth rack.used.length = rack.used.length - depth
      omega
  | grown nodes => rfl
  | reserved count node => rfl
  | wroteTop f => exact congrArg Except.ok (Prod.ext rfl (Stack.ext rfl rfl rfl rfl))
  | wroteNext f => rfl
  | @wroteAt index f isThere =>
      have hThere : index < rack.stack.depth := isThere
      refine congrArg Except.ok (Prod.ext rfl ?_)
      simp only [Stack.modify, if_pos hThere]
      exact Stack.ext rfl rfl rfl rfl
  | @wroteNowhere index f isBeyond =>
      have hBeyond : ¬ index < rack.stack.depth := Nat.not_lt.2 isBeyond
      refine congrArg Except.ok (Prod.ext rfl ?_)
      simp only [Stack.modify, if_neg hBeyond]
  | wroteAll f => exact congrArg Except.ok (Prod.ext rfl (Stack.ext rfl rfl rfl rfl))

/-! ## What comes in and what goes out -/

/-- Every node, wherever it is.

What is counted are nodes as such, in use or spare, whatever order they lie in. -/
def census (rack : Rack α) : Multiset α :=
  ↑rack.used + ↑rack.unused

/-- A fresh node is needed. -/
def NeedsFresh (rack : Rack α) : Request α → Prop
  | .alloc _ => rack.unused = [] ∧ rack.used.length < rack.limit
  | _ => False

/-- The nodes that a request brings: those donated, those put on top, and those made. -/
def gained (rack : Rack α) (request : Request α) : Multiset α :=
  match request, work request rack with
  | .push node, .ok _ _ => {node}
  | .alloc fresh, .ok _ left => Multiset.replicate (left.made - rack.made) fresh
  | .grow nodes, .ok _ _ => ↑nodes
  | .reserve count node, .ok _ _ => Multiset.replicate count node
  | _, _ => 0

/-- The node that a request takes away. -/
def lost (rack : Rack α) (request : Request α) : Multiset α :=
  match request, work request rack with
  | .take, .ok (.node node) _ => {node}
  | _, _ => 0

/-- What is written for a request cannot be seen of a node. -/
def Request.Unseen (view : α → β) : Request α → Prop
  | .writeTop f | .writeNext f | .writeAt _ f => ∀ node, view (f node) = view node
  | .writeAll f => ∀ index node, view (f index node) = view node
  | _ => True

private theorem map_modifyHead_of_unseen {view : α → β} {f : α → α}
    (h : ∀ node, view (f node) = view node) (nodes : List α) :
    (nodes.modifyHead f).map view = nodes.map view := by
  cases nodes with
  | nil => rfl
  | cons node nodes => simp only [List.modifyHead_cons, List.map_cons, h]

private theorem map_modify_of_unseen {view : α → β} {f : α → α}
    (h : ∀ node, view (f node) = view node) (nodes : List α) (index : Nat) :
    (nodes.modify index f).map view = nodes.map view := by
  induction nodes generalizing index with
  | nil => simp
  | cons node nodes ih =>
      cases index with
      | zero => simp only [List.modify_zero_cons, List.map_cons, h]
      | succ index => simp only [List.modify_succ_cons, List.map_cons, ih]

private theorem map_mapIdx_of_unseen {view : α → β} {f : Nat → α → α}
    (h : ∀ index node, view (f index node) = view node) (nodes : List α) :
    (nodes.mapIdx f).map view = nodes.map view := by
  apply List.ext_getElem
  · simp
  · intro index hLeft hRight
    simp [h]

/-- Looking at the nodes does not unsettle a count of them. -/
theorem map_census {left lost before gained : Multiset α}
    (h : left + lost = before + gained) (view : α → β) :
    left.map view + lost.map view = before.map view + gained.map view := by
  rw [← Multiset.map_add, h, Multiset.map_add]

/-- No node is lost and none appears, but for what the caller takes and gives and what
is made. -/
theorem census_after (rack : Rack α) (request : Request α) {view : α → β}
    (h : request.Unseen view) :
    (rack.after request).census.map view + (rack.lost request).map view =
      rack.census.map view + (rack.gained request).map view := by
  have hServes := serves_work rack request
  unfold after gained lost
  generalize work request rack = outcome at hServes ⊢
  cases hServes with
  | full pushes isFull => cases request <;> rfl
  | exhausted hasRoom isBare => rfl
  | underflow pops isEmpty => cases request <;> rfl
  | spare hasRoom isNext =>
      refine map_census ?_ view
      simp only [census, isNext, ← Multiset.cons_coe, Multiset.cons_add,
        Multiset.add_cons]
  | recycled hasRoom isNext =>
      refine map_census ?_ view
      simp only [census, isNext, ← Multiset.cons_coe, Multiset.cons_add,
        Multiset.add_cons, Nat.sub_self, Multiset.replicate_zero]
  | made hasRoom isBare =>
      refine map_census ?_ view
      simp only [census, ← Multiset.cons_coe, ← Multiset.cons_zero, Multiset.cons_add,
        Multiset.add_cons, Multiset.add_zero, Nat.add_sub_cancel_left,
        Multiset.replicate_one]
  | pushed hasRoom =>
      refine map_census ?_ view
      simp only [census, ← Multiset.cons_coe, ← Multiset.cons_zero, Multiset.cons_add,
        Multiset.add_cons, Multiset.add_zero]
  | popped isTop =>
      refine map_census ?_ view
      simp only [census, isTop, ← Multiset.cons_coe, Multiset.cons_add,
        Multiset.add_cons]
  | taken isTop =>
      refine map_census ?_ view
      simp only [census, isTop, ← Multiset.cons_coe, ← Multiset.cons_zero,
        Multiset.cons_add, Multiset.add_cons, Multiset.add_zero]
  | truncated depth =>
      refine map_census (congrArg (· + 0) ?_) view
      simp only [census, Multiset.coe_add, Multiset.coe_eq_coe, ← List.append_assoc]
      refine List.Perm.append_right _ ?_
      have hParts := List.take_append_drop (rack.used.length - depth) rack.used
      exact (((List.reverse_perm _).append_left _).trans List.perm_append_comm).trans
        (.of_eq hParts)
  | grown nodes =>
      refine map_census ?_ view
      simp only [census, ← Multiset.coe_add, Multiset.coe_reverse, Multiset.add_zero]
      rw [Multiset.add_assoc, Multiset.add_comm (nodes : Multiset α)]
  | reserved count node =>
      refine map_census ?_ view
      simp only [census, ← Multiset.coe_add, Multiset.coe_replicate, Multiset.add_zero]
      rw [Multiset.add_assoc, Multiset.add_comm (Multiset.replicate count node)]
  | wroteTop f =>
      simp only [census, Multiset.map_add, Multiset.map_coe, map_modifyHead_of_unseen h]
  | wroteNext f =>
      simp only [census, Multiset.map_add, Multiset.map_coe, map_modifyHead_of_unseen h]
  | wroteAt f isThere =>
      simp only [census, Multiset.map_add, Multiset.map_coe, map_modify_of_unseen h]
  | wroteNowhere f isBeyond => rfl
  | wroteAll f =>
      simp only [census, Multiset.map_add, Multiset.map_coe, map_mapIdx_of_unseen h]

/-- The errors of a rack. -/
def Fails (rack : Rack α) (error : Error) : Prop :=
  error = .capacityExceeded rack.name rack.limit ∨ error = .exhausted rack.name ∨
    error = .stackUnderflow rack.name

/-- How a rack answers a request. -/
structure Handles (rack : Rack α) (request : Request α) : Prop where
  /-- It answers like a stack of the same nodes, and holds the same afterwards. -/
  stack : rack.stack.perform request = told (work request rack)
  /-- It keeps its nodes, but for those that come in and those that go out. -/
  census : ∀ (β : Type) (view : α → β), request.Unseen view →
    (rack.after request).census.map view + (rack.lost request).map view =
      rack.census.map view + (rack.gained request).map view
  /-- A node is made if one is needed, -/
  makes : rack.NeedsFresh request → (rack.after request).made = rack.made + 1
  /-- and not otherwise. -/
  makesNone : ¬ rack.NeedsFresh request → (rack.after request).made = rack.made
  /-- A request that fails changes nothing: neither of the lists, and no node is
  made. -/
  clean : ∀ error left, work request rack = .error error left →
    left = rack ∧ rack.Fails error
  name : (rack.after request).name = rack.name
  limit : (rack.after request).limit = rack.limit
  /-- The entries never outgrow the capacity. -/
  bounded : rack.used.length ≤ rack.limit →
    (rack.after request).used.length ≤ rack.limit

private theorem clean_work {error : Error} {left : Rack α}
    (h : work request rack = .error error left) :
    left = rack ∧ rack.Fails error := by
  have hServes := serves_work rack request
  rw [h] at hServes
  cases hServes with
  | full pushes isFull => exact ⟨rfl, .inl rfl⟩
  | exhausted hasRoom isBare => exact ⟨rfl, .inr (.inl rfl)⟩
  | underflow pops isEmpty => exact ⟨rfl, .inr (.inr rfl)⟩

private theorem made_after (rack : Rack α) (request : Request α) :
    rack.NeedsFresh request ∧ (rack.after request).made = rack.made + 1 ∨
      ¬ rack.NeedsFresh request ∧ (rack.after request).made = rack.made := by
  have hServes := serves_work rack request
  unfold after
  generalize work request rack = outcome at hServes ⊢
  cases hServes with
  | made hasRoom isBare => exact .inl ⟨⟨isBare, hasRoom⟩, rfl⟩
  | recycled hasRoom isNext =>
      refine .inr ⟨fun hNeeds => ?_, rfl⟩
      cases isNext.symm.trans hNeeds.1
  | full pushes isFull =>
      refine .inr ⟨?_, rfl⟩
      cases request with
      | alloc fresh => exact fun hNeeds => Nat.not_le.2 hNeeds.2 isFull
      | _ => exact id
  | underflow pops isEmpty =>
      refine .inr ⟨?_, rfl⟩
      cases request with
      | pop | take => exact id
      | _ => exact pops.elim
  | _ => exact .inr ⟨id, rfl⟩

private theorem sized_after (rack : Rack α) (request : Request α) :
    (rack.after request).name = rack.name ∧ (rack.after request).limit =
      rack.limit := by
  have hServes := serves_work rack request
  unfold after
  generalize work request rack = outcome at hServes ⊢
  cases hServes <;> exact ⟨rfl, rfl⟩

private theorem length_after (rack : Rack α) (request : Request α)
    (h : rack.used.length ≤ rack.limit) :
    (rack.after request).used.length ≤ rack.limit := by
  have hServes := serves_work rack request
  unfold after
  generalize work request rack = outcome at hServes ⊢
  cases hServes with
  | full pushes isFull | underflow pops isEmpty | exhausted hasRoom isBare => exact h
  | spare hasRoom isNext | recycled hasRoom isNext | made hasRoom isBare
  | pushed hasRoom => exact hasRoom
  | popped isTop | taken isTop =>
      rw [isTop] at h
      exact Nat.le_of_succ_le h
  | truncated depth => exact Nat.le_trans (by simp) h
  | grown nodes | reserved count node | wroteNext f | wroteNowhere f isBeyond => exact h
  | wroteTop f | wroteAt f isThere | wroteAll f => simpa using h

private theorem handles (rack : Rack α) (request : Request α) :
    rack.Handles request where
  stack := rack.perform_stack request
  census _ _ h := rack.census_after request h
  makes hNeeds := by
    rcases rack.made_after request with ⟨-, hMade⟩ | ⟨hNot, -⟩
    · exact hMade
    · exact absurd hNeeds hNot
  makesNone hNot := by
    rcases rack.made_after request with ⟨hNeeds, -⟩ | ⟨-, hSame⟩
    · exact absurd hNeeds hNot
    · exact hSame
  clean _ _ h := clean_work h
  name := (rack.sized_after request).1
  limit := (rack.sized_after request).2
  bounded := rack.length_after request

/-! ## Sequences of requests -/

/-- What comes in along a sequence of requests. -/
def gainedBy : Rack α → List (Request α) → Multiset α
  | _, [] => 0
  | rack, request :: requests =>
      rack.gained request + (rack.after request).gainedBy requests

/-- What goes out along a sequence of requests. -/
def lostBy : Rack α → List (Request α) → Multiset α
  | _, [] => 0
  | rack, request :: requests =>
      rack.lost request + (rack.after request).lostBy requests

/-- Two counts, one after the other. -/
theorem add_census {first second third lost gained lostLater gainedLater : Multiset β}
    (h : second + lost = first + gained)
    (hLater : third + lostLater = second + gainedLater) :
    third + (lost + lostLater) = first + (gained + gainedLater) :=
  calc third + (lost + lostLater)
      _ = (third + lostLater) + lost := by
        rw [Multiset.add_comm lost, Multiset.add_assoc]
      _ = (second + lost) + gainedLater := by
        rw [hLater, Multiset.add_assoc, Multiset.add_comm gainedLater,
          Multiset.add_assoc]
      _ = first + (gained + gainedLater) := by rw [h, Multiset.add_assoc]

/-- What comes in over any sequence of requests, with what was there before, is what
goes out with what is there after. Nodes are counted with what is in them, so none is
lost, made up or changed unseen. -/
theorem census_serve (rack : Rack α) {requests : List (Request α)} {view : α → β}
    (h : ∀ request ∈ requests, request.Unseen view) :
    (rack.serve requests).census.map view + (rack.lostBy requests).map view =
      rack.census.map view + (rack.gainedBy requests).map view := by
  induction requests generalizing rack with
  | nil => rfl
  | cons request requests ih =>
      obtain ⟨hFirst, hRest⟩ := List.forall_mem_cons.1 h
      simp only [gainedBy, lostBy, Multiset.map_add]
      exact add_census (rack.census_after request hFirst)
        (ih (rack.after request) hRest)

/-- Along any sequence of requests the entries stay within the capacity. -/
theorem length_serve (rack : Rack α) (requests : List (Request α))
    (h : rack.used.length ≤ rack.limit) :
    (rack.serve requests).limit = rack.limit ∧ (rack.serve requests).used.length ≤
      rack.limit := by
  induction requests generalizing rack with
  | nil => exact ⟨rfl, h⟩
  | cons request requests ih =>
      have hLimit := (rack.sized_after request).2
      have hRun := ih (rack.after request) (hLimit.symm ▸ rack.length_after request h)
      rwa [hLimit] at hRun

private theorem stack_after (rack : Rack α) (request : Request α) :
    (rack.after request).stack = rack.stack.after request := by
  unfold after Stack.after
  rw [rack.perform_stack request]
  cases hWork : work request rack with
  | ok reply left => rfl
  | error error left => rw [(clean_work hWork).1, told]

/-- Along any sequence of requests the nodes lie as on a stack. -/
theorem stack_serve (rack : Rack α) (requests : List (Request α)) :
    (rack.serve requests).stack = rack.stack.serve requests := by
  induction requests generalizing rack with
  | nil => rfl
  | cons request requests ih =>
      change ((rack.after request).serve requests).stack =
        (rack.stack.after request).serve requests
      rw [ih, stack_after]

/-! ## Truncating and refilling -/

/-- The replies to requests, in this order, if none of them fails. -/
def answers : List (Request α) → Work α (List (Reply α))
  | [] => return []
  | request :: requests => do
      let reply ← work request
      let replies ← answers requests
      return reply :: replies

/-- As long as there is room, the next nodes come back one after the other. -/
theorem answers_allocSpare (nodes : List α) {unused : List α}
    (hNext : rack.unused = nodes ++ unused)
    (hRoom : rack.used.length + nodes.length ≤ rack.limit) :
    answers (List.replicate nodes.length .allocSpare) rack =
      .ok (nodes.map .node) { rack with used := nodes.reverse ++ rack.used, unused
        } := by
  induction nodes generalizing rack with
  | nil =>
      obtain ⟨name, limit, used, bare, made⟩ := rack
      cases hNext
      rfl
  | cons node nodes ih =>
      have hStep :
          work .allocSpare rack = .ok (.node node)
          { rack with used := node :: rack.used, unused := nodes ++ unused } := by
        have hServes := serves_work rack .allocSpare
        generalize work .allocSpare rack = outcome at hServes ⊢
        rw [List.length_cons] at hRoom
        cases hServes with
        | full pushes isFull => omega
        | exhausted hasRoom isBare => cases isBare.symm.trans hNext
        | underflow pops isEmpty => exact pops.elim
        | spare hasRoom isNext =>
            cases isNext.symm.trans hNext
            rfl
      have hRest :=
        @ih { rack with used := node :: rack.used, unused := nodes ++ unused } rfl (by
        simp only [List.length_cons] at hRoom ⊢
        omega)
      rw [List.length_cons, List.replicate_succ, answers]
      simp only [bind, EStateM.bind, hStep, hRest]
      rw [List.map_cons, List.reverse_cons, List.append_assoc]
      rfl

/-- What was cut off comes back node by node, in the order in which it lay, and nothing
has changed then. -/
theorem refill_truncate (depth : Nat) (h : rack.used.length ≤ rack.limit) :
    ∃ cut, work (.truncate depth) rack = .ok (.count (rack.used.length - depth)) cut ∧
      answers (List.replicate (rack.used.length - depth) .allocSpare) cut =
        .ok ((rack.used.take (rack.used.length - depth)).reverse.map .node) rack := by
  have hCut := serves_work rack (.truncate depth)
  generalize hOutcome : work (.truncate depth) rack = outcome at hCut
  cases hCut with
  | full pushes isFull => exact pushes.elim
  | underflow pops isEmpty => exact pops.elim
  | truncated =>
      refine ⟨_, rfl, ?_⟩
      have hLength : (rack.used.take (rack.used.length - depth)).reverse.length =
          rack.used.length - depth := by
        rw [List.length_reverse, List.length_take]
        omega
      let cut : Rack α := { rack with
        used := rack.used.drop (rack.used.length - depth)
        unused := (rack.used.take (rack.used.length - depth)).reverse ++ rack.unused }
      have hRoom :
          cut.used.length + (rack.used.take (rack.used.length - depth)).reverse.length ≤
          cut.limit := by
        rw [hLength, List.length_drop]
        change rack.used.length - (rack.used.length - depth) +
          (rack.used.length - depth) ≤ rack.limit
        omega
      have hAnswers :=
        answers_allocSpare (rack.used.take (rack.used.length - depth)).reverse rfl hRoom
      rw [hLength] at hAnswers
      rw [hAnswers, List.reverse_reverse]
      congr
      exact List.take_append_drop _ _

/-! ## Any requests -/

/-- Nodes are neither lost nor duplicated, and failures are clean. Take a rack without
nodes and any requests to it. There are never more entries than the capacity allows, and
the nodes lie as on a stack to which the same requests are made. For every way to look
at nodes that the writes among the requests do not disturb, the nodes there are and
those taken away are together those that were donated, put on top or made. The next
request, whatever it is, keeps that balance on its own: a node is made just if one is
needed, and a request that fails leaves both lists as they are, with nothing made. And
what is cut off at any depth comes back if so many nodes are asked for, all of which are
there, so that both lists are as they were.

Nodes have no identity of their own here, so they are counted by what a view of them
shows. With labels that no write touches, that is as good as identity. -/
theorem rack_conserves (name : String) (limit : Nat) (requests : List (Request α)) :
    let first : Rack α := { name, limit }
    let rack := first.serve requests
    rack.used.length ≤ limit ∧
      rack.stack = (Stack.empty name limit).serve requests ∧
      (∀ (β : Type) (view : α → β), (∀ request ∈ requests, request.Unseen view) →
        rack.census.map view + (first.lostBy requests).map view =
          (first.gainedBy requests).map view) ∧
      (∀ request, rack.Handles request) ∧
      ∀ depth, ∃ cut, work (.truncate depth) rack =
        .ok (.count (rack.used.length - depth)) cut ∧
        answers (List.replicate (rack.used.length - depth) .allocSpare) cut =
          .ok ((rack.used.take (rack.used.length - depth)).reverse.map .node) rack := by
  intro first rack
  obtain ⟨hLimit, hLength⟩ := first.length_serve requests (Nat.zero_le limit)
  refine ⟨hLength, first.stack_serve requests, fun β view hUnseen => ?_, rack.handles,
    fun depth => refill_truncate depth ?_⟩
  · have hCensus := first.census_serve hUnseen
    have hNone : first.census.map view = 0 := rfl
    rwa [hNone, Multiset.zero_add] at hCensus
  · exact hLength.trans_eq hLimit.symm

/-- Labelled nodes are donated, put on top, made, written over, refused and taken away;
the labels tell where each one is. -/
theorem rack_conserves_of_labels :
    let requests : List (Request (Nat × String)) :=
      [.grow [(1, "a"), (2, "b")], .allocSpare, .writeTop fun node => (node.1, "top"),
      .push (3, "c"), .take, .truncate 0, .writeNext fun node => (node.1, "next"),
        .alloc (4, "d"), .alloc (5, "e"), .alloc (6, "f"),
      .push (7, "g"), .writeAll fun index node => (node.1, node.2 ++ toString index),
        .pop]
    let first : Rack (Nat × String) := { name := "nodes", limit := 3 }
    let rack := first.serve requests
    (∀ request ∈ requests, request.Unseen Prod.fst) ∧ rack.made = 1 ∧
      rack.used.map Prod.fst = [1, 2] ∧ rack.unused.map Prod.fst = [6] ∧
      first.lostBy requests = {(3, "c")} ∧
      rack.census.map Prod.fst + {3} = (first.gainedBy requests).map Prod.fst := by
  intro requests first rack
  have hUnseen : ∀ request ∈ requests, request.Unseen Prod.fst := by
    simp [requests, Request.Unseen]
  have hLost : first.lostBy requests = {(3, "c")} := by decide +kernel
  obtain ⟨-, -, hCensus, -⟩ := rack_conserves "nodes" 3 requests
  refine ⟨hUnseen, by decide +kernel, by decide +kernel, by decide +kernel, hLost, ?_⟩
  have hLabels := hCensus Nat Prod.fst hUnseen
  rwa [hLost, Multiset.map_singleton] at hLabels

end Rack

end Unwinding
