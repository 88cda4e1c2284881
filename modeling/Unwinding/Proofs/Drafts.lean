import Unwinding.Proofs.GuardBodies
import Unwinding.Proofs.Lineage
import Unwinding.Proofs.Nodes

/-!
# What records say

The message of a raise is written piece by piece, and code may run between the pieces.
That code cannot use the context, so at most one message is written at a time, above all
regions and guard bodies: `Post` is what matters of the code that waits,
`Machine.Drafts` all that a step can do to it, and `Machine.draft` what the message is
to say, noted along the run.

A message that is written is cut to the number of bytes that the configuration allows.
If nothing is left of it, then the record says what its kind says of itself, and that is
not cut.

## Main results

* `longest_writeAll` — writing piece by piece keeps the longest beginning of the whole
  text that fits.
* `Machine.drafts_step` — what a step does to the message that is being written.
* `said_steps` — what the records say that a run puts onto the exception stack.
* `unsaid_exceeds` — a message that nobody wrote is longer than a message may be.
-/

namespace Unwinding

open Context

/-! ## The longest beginning -/

namespace Bounded

/-- The longest beginning of a text that has at most so many bytes. It ends where a
character ends, as every text does. -/
structure Longest (limit : Nat) (text part : String) : Prop where
  begins : ∃ rest, text = part ++ rest
  fits : part.utf8ByteSize ≤ limit
  longest : ∀ other rest, text = other ++ rest → other.utf8ByteSize ≤ limit → ∃ more,
    part = other ++ more

private theorem utf8ByteSize_ofList (chars : List Char) :
    (String.ofList chars).utf8ByteSize = bytes chars := by
  induction chars with
  | nil => rfl
  | cons c rest ih =>
      have hSplit : String.ofList (c :: rest) = String.singleton c ++
          String.ofList rest := by
        rw [← String.toList_inj]
        simp
      rw [hSplit, String.utf8ByteSize_append, ih, String.utf8ByteSize_singleton,
        bytes_cons]

private theorem utf8ByteSize_eq_bytes (text : String) :
    text.utf8ByteSize = bytes text.toList := by
  rw [← utf8ByteSize_ofList, String.ofList_toList]

private theorem fitChars_begins (room : Nat) (chars : List Char) :
    ∃ rest, chars = fitChars room chars ++ rest := by
  induction chars generalizing room with
  | nil => exact ⟨[], rfl⟩
  | cons c tail ih =>
      unfold fitChars
      split
      · obtain ⟨rest, hRest⟩ := ih (room - c.utf8Size)
        exact ⟨rest, congrArg (c :: ·) hRest⟩
      · exact ⟨c :: tail, rfl⟩

/-- What does not fit is cut where it is cut without what follows it. -/
theorem fitChars_append_of_lt {room : Nat} {first : List Char} (rest : List Char)
    (h : room < bytes first) :
    fitChars room (first ++ rest) = fitChars room first := by
  induction first generalizing room with
  | nil => exact absurd h (Nat.not_lt_zero _)
  | cons c tail ih =>
      rw [bytes_cons] at h
      simp only [List.cons_append, fitChars]
      split
      · have hTail : room - c.utf8Size < bytes tail := by omega
        rw [ih hTail]
      · rfl

/-- A beginning that fits is kept by the cut. -/
theorem fit_append {room : Nat} {first : String} (rest : String)
    (h : first.utf8ByteSize ≤ room) :
    fit room (first ++ rest) = first ++ fit (room - first.utf8ByteSize) rest := by
  rw [utf8ByteSize_eq_bytes] at h ⊢
  unfold fit
  rw [String.toList_append, fitChars_append _ h, String.ofList_append,
    String.ofList_toList]

private theorem fit_append_of_lt {room : Nat} {first : String} (rest : String)
    (h : room < first.utf8ByteSize) :
    fit room (first ++ rest) = fit room first := by
  rw [utf8ByteSize_eq_bytes] at h
  unfold fit
  rw [String.toList_append, fitChars_append_of_lt _ h]

/-- What is cut to fit is the longest beginning of the text that fits and ends between
characters. -/
theorem longest_fit (limit : Nat) (text : String) :
    Longest limit text (fit limit text) where
  begins := by
    obtain ⟨rest, hRest⟩ := fitChars_begins limit text.toList
    refine ⟨String.ofList rest, ?_⟩
    rw [fit, ← String.ofList_append, ← hRest, String.ofList_toList]
  fits := by
    rw [fit, utf8ByteSize_ofList]
    exact bytes_fitChars_le _ _
  longest other rest hText hFits :=
    ⟨fit (limit - other.utf8ByteSize) rest, hText ▸ fit_append rest hFits⟩

/-- Pieces are cut, all together, to the room that they find. -/
theorem text_writeAll_of_room (buffer : Bounded) (pieces : List String) :
    (buffer.writeAll pieces).text = buffer.text ++
      fit buffer.room (String.join pieces) := by
  induction pieces generalizing buffer with
  | nil => simp [writeAll, fit, fitChars, String.join]
  | cons piece rest ih =>
      rw [String.join_cons]
      unfold writeAll write
      by_cases hFits : piece.utf8ByteSize ≤ buffer.room
      · have hRoom : ({ buffer with text := buffer.text ++ piece } : Bounded).room =
          buffer.room - piece.utf8ByteSize := by
          simp only [room, String.utf8ByteSize_append, Nat.sub_sub]
        rw [if_pos hFits, fit_append (String.join rest) hFits, ← String.append_assoc,
          ← hRoom]
        exact ih _
      · rw [if_neg hFits, fit_append_of_lt _ (Nat.not_le.1 hFits)]

/-- Pieces that are written after a text that fits are cut as the whole text is. -/
theorem text_writeAll (buffer : Bounded) (pieces : List String)
    (h : buffer.text.utf8ByteSize ≤ buffer.limit) :
    (buffer.writeAll pieces).text =
      fit buffer.limit (buffer.text ++ String.join pieces) := by
  rw [text_writeAll_of_room, fit_append _ h]
  rfl

/-- Writing piece by piece keeps the longest beginning of the whole text that fits. -/
theorem longest_writeAll (limit : Nat) (pieces : List String) :
    Longest limit (String.join pieces) (writeAll { limit } pieces).text := by
  have hText := text_writeAll { limit } pieces (Nat.zero_le _)
  rw [String.empty_append] at hText
  exact hText ▸ longest_fit limit _

/-- A text that is written at once. -/
theorem longest_write (limit : Nat) (text : String) :
    Longest limit text (write { limit } text).1.text := by
  have h := longest_writeAll limit [text]
  have hJoin : String.join [text] = text := by
    rw [String.join_cons]; exact String.append_empty
  have hWrite : writeAll { limit } [text] = (write { limit } text).1 := by
    unfold writeAll
    cases write { limit } text with
    | mk buffer fits => cases fits <;> rfl
  rwa [hJoin, hWrite] at h

end Bounded

/-! ## Messages -/

variable {ν : Type}

/-- What a piece adds to its message: code that runs while the message is written adds
nothing. -/
def Piece.said : Piece ν → String
  | .text said => said
  | .run _ => ""

/-- A raise with the message that is written for it.

The raise itself only knows the buffer. What was to be written is kept here, to compare
it with. -/
structure Draft (ν : Type) where
  kind : Kind
  site : Site
  message : List (Piece ν)

/-- The whole text of a message, before it is cut. -/
def Draft.text (draft : Draft ν) : String :=
  String.join (draft.message.map Piece.said)

/-- What matters of the code that waits where a message is written: the message, what is
left of it, and the regions and guard bodies, which begin and end only while none is
written.

Code that runs while a message is written cannot use the runtime, so there is at most
one message, and everything else lies around it. -/
inductive Post (ν : Type) where
  | draft (raising : Raising) (rest : List (Piece ν))
  | region

/-- What waiting code has to do with messages: it is in the middle of one, or in a
region. -/
def Resumption.post? : Resumption ν → Option (Post ν)
  | .message raising rest => some (.draft raising rest)
  | .body _ => some .region
  | .handler _ => some .region
  | .guarding _ => some .region
  | _ => none

/-- The message that a machine writes, and the region that it is busy with. -/
def Focus.posts : Focus ν → List (Post ν)
  | .write raising pieces => [.draft raising pieces]
  | .offer _ _ => [.region]
  | .leave _ _ => [.region]
  | _ => []

namespace Machine

/-- The messages that are being written and the regions between them, innermost
first. -/
def posts (m : Machine ν) : List (Post ν) :=
  m.focus.posts ++ m.control.filterMap Resumption.post?

/-- What a step does to the message that is being written. -/
inductive Drafts (m after : Machine ν) : Prop
  | keeps (hUse : after.inUse = m.inUse) (hPosts : after.posts = m.posts)
  | opens (hFree : m.inUse = false) (hUse : after.inUse = false)
      (hPosts : after.posts = .region :: m.posts)
  | closes (hUse : after.inUse = m.inUse) (hPosts : m.posts = .region :: after.posts)
  | begins {ref : KindRef} {site : Site} {message : List (Piece ν)} {kind : Kind}
      {context : Context}
      (hFocus : m.focus = .exec (.raise ref site message))
      (hKind : ref.resolve? m.registry.slots = some kind)
      (hFree : m.inUse = false) (hContext : m.context = some context)
      (hUse : after.inUse = true)
      (hPosts : after.posts = .draft ⟨kind, site, { limit := context.messageLimit }⟩
        message :: m.posts)
  | goesOn {raising : Raising} {piece : Piece ν} {rest : List (Piece ν)}
      {buffer : Bounded} {older : List (Post ν)}
      (hWrite : raising.buffer.write piece.said = (buffer, true))
      (hUse : after.inUse = m.inUse)
      (hBefore : m.posts = .draft raising (piece :: rest) :: older)
      (hAfter : after.posts = .draft { raising with buffer } rest :: older)
  | ends {raising : Raising} {rest : List (Piece ν)} (hUse : after.inUse = false)
      (hPosts : m.posts = .draft raising rest :: after.posts)

/-! ### What leaves the message alone -/

section

variable {m popped : Machine ν}

private theorem inUse_terminate (m : Machine ν) (termination : Termination) :
    (m.terminate termination).inUse = m.inUse := by
  unfold terminate installed
  cases m.config with
  | none => rfl
  | some config =>
      dsimp only
      cases config.terminator <;> dsimp only
      · split <;> rfl
      · rfl
      · rfl
      · rfl

private theorem focus_posts_terminate (m : Machine ν) (termination : Termination) :
    (m.terminate termination).focus.posts = [] := by
  unfold terminate installed
  cases m.config with
  | none => rfl
  | some config =>
      dsimp only
      cases config.terminator <;> dsimp only
      · split <;> rfl
      · rfl
      · rfl
      · rfl

private theorem posts_terminate (m : Machine ν) (termination : Termination) :
    (m.terminate termination).posts = m.control.filterMap Resumption.post? := by
  unfold posts
  rw [focus_posts_terminate, control_terminate]
  rfl

private theorem filterMap_post_of_map {control after : List (Resumption ν)}
    (h : after.map Resumption.post? = control.map Resumption.post?) :
    after.filterMap Resumption.post? = control.filterMap Resumption.post? := by
  have hReduced := congrArg (List.filterMap id) h
  simpa [List.filterMap_map] using hReduced

private theorem post_own (m : Machine ν) (name : String) (handle : Handle ν) :
    (m.own name handle).control.filterMap Resumption.post? =
      m.control.filterMap Resumption.post? :=
  filterMap_post_of_map (map_own (fun _ _ _ _ _ => rfl) m name handle)

/-- A step on the context, by what follows if it fails and if it answers. -/
theorem drafts_perform {α : Type} {step : Step α} {next : Machine ν → α → Machine ν}
    (hFails : ∀ failed : Machine ν, failed.inUse = popped.inUse →
      failed.posts = popped.control.filterMap Resumption.post? →
      m.Drafts failed)
    (hNext : ∀ context after answer, popped.inUse = false →
      popped.context = some context →
      m.Drafts (next (popped.store after) answer)) :
        m.Drafts (popped.perform step next) := by
  have hFatal (stored : Machine ν) (error : Error) (dump : Option String)
    (hUse : stored.inUse = popped.inUse)
    (hControl : stored.control = popped.control) :
        m.Drafts (stored.fatal error dump) := by
    refine hFails _ ((inUse_terminate _ _).trans hUse) ((posts_terminate _ _).trans ?_)
    exact congrArg (List.filterMap Resumption.post?) hControl
  unfold perform
  split
  · exact hFatal popped _ _ rfl rfl
  · next hFree =>
      split
      · exact hFatal popped _ _ rfl rfl
      · next context hContext =>
          split
          · exact hNext context _ _ (by simpa using hFree) hContext
          · exact hFatal (popped.store _) _ _ rfl rfl

/-- A step on the context that leaves the message alone if what follows does. -/
theorem Drafts.perform {α : Type} {step : Step α} {next : Machine ν → α → Machine ν}
    (hUse : popped.inUse = m.inUse)
    (hPosts : popped.control.filterMap Resumption.post? = m.posts)
    (hNext : ∀ after answer, (next (popped.store after) answer).inUse = popped.inUse ∧
      (next (popped.store after) answer).posts =
        popped.control.filterMap Resumption.post?) :
    m.Drafts (popped.perform step next) := by
  refine drafts_perform (fun failed hFailed hLeft => ?_) fun _ after answer _ _ => ?_
  · exact .keeps (hFailed.trans hUse) (hLeft.trans hPosts)
  · obtain ⟨hDone, hLeft⟩ := hNext after answer
    exact .keeps (hDone.trans hUse) (hLeft.trans hPosts)

/-- A step on the context after which a region, or a guard body, is left. -/
theorem Drafts.performClosing {α : Type} {step : Step α}
    {next : Machine ν → α → Machine ν} (hUse : popped.inUse = m.inUse)
    (hPosts : m.posts = .region :: popped.control.filterMap Resumption.post?)
    (hNext : ∀ after answer, (next (popped.store after) answer).inUse = popped.inUse ∧
      (next (popped.store after) answer).posts =
        popped.control.filterMap Resumption.post?) :
    m.Drafts (popped.perform step next) := by
  refine drafts_perform (fun failed hFailed hLeft => ?_) fun _ after answer _ _ => ?_
  · exact .closes (hFailed.trans hUse) (hLeft ▸ hPosts)
  · obtain ⟨hDone, hLeft⟩ := hNext after answer
    exact .closes (hDone.trans hUse) (hLeft ▸ hPosts)

/-- A step on the context after which the region that was busy goes on, or is lost. -/
theorem Drafts.performStaying {α : Type} {step : Step α}
    {next : Machine ν → α → Machine ν} (hUse : popped.inUse = m.inUse)
    (hPosts : m.posts = .region :: popped.control.filterMap Resumption.post?)
    (hNext : ∀ after answer, (next (popped.store after) answer).inUse = popped.inUse ∧
      (next (popped.store after) answer).posts =
        .region :: popped.control.filterMap Resumption.post?) :
    m.Drafts (popped.perform step next) := by
  refine drafts_perform (fun failed hFailed hLeft => ?_) fun _ after answer _ _ => ?_
  · exact .closes (hFailed.trans hUse) (hLeft ▸ hPosts)
  · obtain ⟨hDone, hLeft⟩ := hNext after answer
    exact .keeps (hDone.trans hUse) (hLeft.trans hPosts.symm)

/-- A step on the context after which a region, or a guard body, begins. -/
theorem Drafts.performOpening {α : Type} {step : Step α}
    {next : Machine ν → α → Machine ν}
    (hPosts : m.control.filterMap Resumption.post? = m.posts)
    (hNext : ∀ after answer, (next (m.store after) answer).inUse = m.inUse ∧
      (next (m.store after) answer).posts =
        .region :: m.control.filterMap Resumption.post?) :
        m.Drafts (m.perform step next) := by
  refine drafts_perform (fun failed hFailed hLeft => ?_) fun _ after answer hFree _ =>
    ?_
  · exact .keeps hFailed (hLeft.trans hPosts)
  · obtain ⟨hDone, hLeft⟩ := hNext after answer
    exact .opens hFree (hDone.trans hFree) (hPosts ▸ hLeft)

/-! ### Statements and handles -/

/-- A machine whose focus is on no message and no region. -/
theorem posts_of_focus (h : m.focus.posts = []) :
    m.control.filterMap Resumption.post? = m.posts := by
  unfold posts
  rw [h]
  rfl

private theorem drafts_acquire {name : String} {opening : Opening} {times : Nat}
    (hPosts : m.control.filterMap Resumption.post? = m.posts) :
    m.Drafts
      (m.acquire name opening fun m => m.goto (.exec (.acquire name opening times))) :=
      by
  have owns (stored : Machine ν) (handle : Handle ν) :
      ((stored.own name handle).goto (.exec (.acquire name opening times))).inUse =
        stored.inUse ∧
        ((stored.own name handle).goto (.exec (.acquire name opening times))).posts =
          stored.control.filterMap Resumption.post? :=
    ⟨(own_same stored name handle).2, post_own stored name handle⟩
  unfold acquire
  cases opening with
  | thread limits =>
      have hUse := (openThread_same m limits).2
      have hControl := control_openThread m limits
      dsimp only
      generalize m.openThread limits = result at hUse hControl
      obtain ⟨outcome, opened⟩ := result
      have hLeft : opened.control.filterMap Resumption.post? = m.posts := by
        rw [hControl, hPosts]
      cases outcome with
      | opened =>
          exact .keeps ((owns opened _).1.trans hUse) ((owns opened _).2.trans hLeft)
      | refused error => exact .keeps hUse hLeft
      | overflowed => exact .keeps hUse hLeft
  | region site => exact .perform rfl hPosts fun after _ => owns (m.store after) _
  | call site => exact .perform rfl hPosts fun after _ => owns (m.store after) _
  | guards site => exact .keeps (owns m _).1 ((owns m _).2.trans hPosts)

private theorem drafts_registerGuard {name : String} {flavor : Flavor}
    {body : List (Stmt ν)} (hPosts : m.control.filterMap Resumption.post? = m.posts) :
    m.Drafts (m.registerGuard name flavor body) := by
  have puts (handle : Handle ν) :
    (Handle.put name handle m.control).filterMap Resumption.post? =
      m.control.filterMap Resumption.post? :=
    filterMap_post_of_map (map_put (fun _ _ _ _ _ => rfl) name handle m.control)
  unfold registerGuard
  split
  · dsimp only
    split
    · exact .keeps rfl ((puts _).trans hPosts)
    · exact .perform rfl hPosts fun _ _ => ⟨rfl, puts _⟩
  · exact .keeps rfl hPosts

private theorem drafts_release {name : String} {how : Closing}
    (hPosts : m.control.filterMap Resumption.post? = m.posts) :
    m.Drafts (m.release name how) := by
  unfold release
  cases hTake : Handle.take? name m.control with
  | none => exact .keeps rfl hPosts
  | some taken =>
      obtain ⟨handle, control⟩ := taken
      have hLeft : control.filterMap Resumption.post? = m.posts :=
        (filterMap_post_of_map (map_take? (fun _ _ _ _ _ => rfl) hTake)).trans hPosts
      dsimp only
      split
      · exact .keeps rfl hLeft
      · exact .perform rfl hLeft fun _ _ => ⟨rfl, rfl⟩
      · have hUse := (closeThread_same ({ m with control } : Machine ν)).2
        have hControl := control_closeThread ({ m with control } : Machine ν)
        exact .keeps hUse
          ((congrArg (List.filterMap Resumption.post?) hControl).trans hLeft)
      · exact .keeps rfl hLeft

private theorem drafts_drop {handle : Handle ν}
    (hPosts : m.control.filterMap Resumption.post? = m.posts) :
    m.Drafts (m.drop handle) := by
  unfold drop
  cases handle with
  | thread =>
      exact .keeps (dropThread_same m).2
        ((congrArg (List.filterMap Resumption.post?) (control_dropThread m)).trans
        hPosts)
  | region visit inUnwinding =>
      dsimp only
      split
      · exact .keeps rfl hPosts
      · split <;> exact .perform rfl hPosts fun _ _ => ⟨rfl, rfl⟩
  | call entry inUnwinding =>
      dsimp only
      split
      · exact .keeps rfl hPosts
      · exact .perform rfl hPosts fun _ _ => ⟨rfl, rfl⟩
  | guards scope =>
      dsimp only
      split
      · exact .keeps rfl hPosts
      · split <;> exact .keeps rfl hPosts

/-! ### Raises and regions -/

private theorem drafts_raise {ref : KindRef} {site : Site} {message : List (Piece ν)}
    (hFocus : m.focus = .exec (.raise ref site message))
    (hPosts : m.control.filterMap Resumption.post? = m.posts) :
    m.Drafts (m.raise ref site message) := by
  unfold raise
  cases hKind : ref.resolve? m.registry.slots with
  | none => exact .keeps (inUse_terminate _ _) ((posts_terminate _ _).trans hPosts)
  | some kind =>
      dsimp only
      cases hUse : m.inUse with
      | true =>
          rw [perform_reentered _ hUse]
          exact .keeps (inUse_terminate _ _) ((posts_terminate _ _).trans hPosts)
      | false =>
          cases hContext : m.context with
          | none =>
              rw [perform_missing _ hUse hContext]
              exact .keeps (inUse_terminate _ _) ((posts_terminate _ _).trans hPosts)
          | some context =>
              rw [perform_settled _ hUse hContext]
              cases hEntry : m.registry.table.entry kind with
              | error error =>
                  exact .keeps (inUse_terminate _ _)
                    ((posts_terminate _ _).trans hPosts)
              | ok entry =>
                  exact .begins hFocus hKind hUse hContext rfl
                    (congrArg (_ :: ·) hPosts)

/-- What becomes of an exception that has been sent on its way, or handed back. -/
theorem posts_sent (m : Machine ν) (uncaught : Option Exception) :
    (match uncaught with
        | none => m.unwind .raise
        | some exception => m.uncaught exception).inUse = m.inUse ∧
      (match uncaught with
        | none => m.unwind .raise
        | some exception =>
            m.uncaught exception).posts = m.control.filterMap Resumption.post? := by
  cases uncaught with
  | none => exact ⟨rfl, rfl⟩
  | some exception => exact ⟨inUse_terminate _ _, posts_terminate _ _⟩

private theorem drafts_finishRaise {raising finished : Raising}
    {pieces : List (Piece ν)}
    (hPosts : m.posts = .draft raising pieces :: m.control.filterMap Resumption.post?) :
    m.Drafts (m.finishRaise finished) := by
  unfold finishRaise
  refine drafts_perform (fun failed hFree hLeft => .ends hFree (hLeft ▸ hPosts))
    fun _ after uncaught _ _ => ?_
  obtain ⟨hFree, hLeft⟩ :=
    posts_sent (({ m with inUse := false } : Machine ν).store after) uncaught
  exact .ends hFree (hLeft ▸ hPosts)

private theorem drafts_write {raising : Raising} {pieces : List (Piece ν)}
    (hFocus : m.focus = .write raising pieces) :
    m.Drafts (m.write raising pieces) := by
  have hPosts :
      m.posts = .draft raising pieces :: m.control.filterMap Resumption.post? := by
    unfold posts
    rw [hFocus]
    rfl
  cases pieces with
  | nil => exact drafts_finishRaise hPosts
  | cons piece rest =>
      cases piece with
      | run body =>
          have hNothing : raising.buffer.write "" = (raising.buffer, true) := by
            have hFits : "".utf8ByteSize ≤ raising.buffer.room := Nat.zero_le _
            unfold Bounded.write
            rw [if_pos hFits, String.append_empty]
          exact .goesOn hNothing rfl hPosts rfl
      | text text =>
          simp only [write]
          split
          · next buffer hWrite => exact .goesOn hWrite rfl hPosts rfl
          · exact drafts_finishRaise hPosts

private theorem drafts_protect {levels : Nat} {site : Site} {mode : Mode}
    {clauses : List (Clause ν)} {body : List (Stmt ν)}
    (hPosts : m.control.filterMap Resumption.post? = m.posts) :
    m.Drafts (m.protect levels site mode clauses body) := by
  refine .performOpening hPosts fun after visit => ?_
  dsimp only
  split <;> exact ⟨rfl, rfl⟩

private theorem drafts_offer {region : Protected ν} {exception : Exception}
    (hPosts : m.posts = .region :: m.control.filterMap Resumption.post?) :
    m.Drafts (m.offer region exception) := by
  unfold offer
  dsimp only
  split
  · exact .keeps rfl hPosts.symm
  · exact .performStaying rfl hPosts fun _ _ => ⟨rfl, rfl⟩

private theorem drafts_leave {region : Protected ν}
    {outcome : Except Exception (Option ν)}
    (hPosts : m.posts = .region :: m.control.filterMap Resumption.post?) :
    m.Drafts (m.leave region outcome) := by
  refine .performClosing rfl hPosts fun after _ => ?_
  cases outcome <;> cases region.mode <;> exact ⟨rfl, rfl⟩

private theorem drafts_leaveScope {scope : Leaving ν}
    (hPosts : m.control.filterMap Resumption.post? = m.posts) :
    m.Drafts (m.leaveScope scope) := by
  unfold leaveScope
  split
  · exact .perform rfl hPosts fun _ _ => ⟨rfl, rfl⟩
  · split
    · exact .performOpening hPosts fun _ _ => ⟨rfl, rfl⟩
    · exact .keeps rfl hPosts

private theorem drafts_passThrough {region : Protected ν} {payload : Payload}
    (hUse : popped.inUse = m.inUse)
    (hPosts : m.posts = .region :: popped.control.filterMap Resumption.post?) :
    m.Drafts (popped.passThrough region payload) := by
  unfold passThrough
  split
  · exact .closes hUse hPosts
  · exact .performClosing hUse hPosts fun _ _ => ⟨rfl, rfl⟩

/-! ### Code that runs and code that waits -/

private theorem drafts_exec {stmt : Stmt ν} (hFocus : m.focus = .exec stmt) :
    m.Drafts (m.exec stmt) := by
  have hPosts : m.control.filterMap Resumption.post? = m.posts :=
    posts_of_focus (by rw [hFocus]; rfl)
  unfold exec
  cases stmt with
  | raise ref site message => exact drafts_raise hFocus hPosts
  | protect levels site mode clauses body => exact drafts_protect hPosts
  | guard scope flavor body => exact drafts_registerGuard hPosts
  | release name how => exact drafts_release hPosts
  | acquire name opening times =>
      cases times with
      | zero => exact .keeps rfl hPosts
      | succ times => exact drafts_acquire hPosts
  | loop times body => cases times <;> exact .keeps rfl hPosts
  | annotate text =>
      dsimp only
      split <;> exact .keeps rfl hPosts
  | rethrow name =>
      dsimp only
      split <;> exact .keeps rfl hPosts
  | inspect name =>
      dsimp only
      split <;> exact .keeps rfl hPosts
  | configure config =>
      dsimp only
      split <;> exact .keeps rfl hPosts
  | declare entry =>
      dsimp only
      split
      · exact .keeps rfl hPosts
      · next kind registry notices _ =>
          have hControl := control_foldl_note notices ({ m with registry } : Machine ν)
          refine .keeps ?_
            ((congrArg (List.filterMap Resumption.post?) hControl).trans hPosts)
          exact (foldl_note_bindings notices ({ m with registry } : Machine ν)).2
  | _ => exact .keeps rfl hPosts

private theorem drafts_proceed (hFocus : m.focus = .next) : m.Drafts m.proceed := by
  have hPosts : m.control.filterMap Resumption.post? = m.posts :=
    posts_of_focus (by rw [hFocus]; rfl)
  unfold proceed
  split
  all_goals first
    | exact .keeps rfl hPosts
    | next hControl =>
        rw [hControl] at hPosts
        exact .keeps rfl hPosts

private theorem drafts_complete {value : Option (Option ν)}
    (hFocus : m.focus = .complete value) : m.Drafts (m.complete value) := by
  have hPosts : m.control.filterMap Resumption.post? = m.posts :=
    posts_of_focus (by rw [hFocus]; rfl)
  unfold complete
  split
  · next hControl =>
      rw [hControl] at hPosts
      exact .keeps rfl hPosts
  · exact .keeps rfl hPosts

private theorem drafts_deliver {value : Option ν} (hFocus : m.focus = .deliver value) :
    m.Drafts (m.deliver value) := by
  have hPosts : m.control.filterMap Resumption.post? = m.posts :=
    posts_of_focus (by rw [hFocus]; rfl)
  unfold deliver
  cases hControl : m.control with
  | nil => exact .keeps rfl hPosts
  | cons waiting below =>
      rw [hControl] at hPosts
      cases waiting with
      | body region =>
          refine drafts_perform
            (fun failed hFailed hLeft => .closes hFailed (hLeft ▸ hPosts.symm))
            fun _ _ escape _ _ => ?_
          cases escape <;> exact .keeps rfl hPosts
      | guarding scope => exact .performClosing rfl hPosts.symm fun _ _ => ⟨rfl, rfl⟩
      | loop times body => cases times <;> exact .keeps rfl hPosts
      | thread auto =>
          cases auto with
          | false => exact .keeps rfl hPosts
          | true =>
              have hUse :=
                (closeThread_same ({ m with control := below } : Machine ν)).2
              have hLeft :=
                control_closeThread ({ m with control := below } : Machine ν)
              exact .keeps hUse
                ((congrArg (List.filterMap Resumption.post?) hLeft).trans hPosts)
      | block word rest handles old =>
          refine .keeps rfl (Eq.trans ?_ hPosts)
          exact congrArg (List.filterMap Resumption.post?) hControl
      | _ => exact .keeps rfl hPosts

private theorem drafts_propagate {payload : Payload}
    (hFocus : m.focus = .unwind payload) : m.Drafts (m.propagate payload) := by
  have hPosts : m.control.filterMap Resumption.post? = m.posts :=
    posts_of_focus (by rw [hFocus]; rfl)
  unfold propagate
  cases hControl : m.control with
  | nil => exact .keeps rfl hPosts
  | cons waiting below =>
      rw [hControl] at hPosts
      cases waiting with
      | block word rest handles value => cases handles <;> exact .keeps rfl hPosts
      | body region =>
          cases payload with
          | raise => exact .performStaying rfl hPosts.symm fun _ _ => ⟨rfl, rfl⟩
          | panic text => exact drafts_passThrough rfl hPosts.symm
          | termination termination => exact drafts_passThrough rfl hPosts.symm
      | handler region => exact drafts_passThrough rfl hPosts.symm
      | guarding scope =>
          have hLeft (error : Error) (dump : Option String) :
              ((({ m with control := below } : Machine ν).caught).fatal error
                dump).posts = below.filterMap Resumption.post? :=
            posts_terminate _ _
          exact .closes (inUse_terminate _ _)
            (hPosts.symm.trans (congrArg (Post.region :: ·) (hLeft _ _).symm))
      | attempt resume => cases resume <;> exact .keeps rfl hPosts
      | message raising rest => exact .ends rfl hPosts.symm
      | thread auto =>
          cases auto with
          | false => exact .keeps rfl hPosts
          | true =>
              have hLeft := control_dropThread ({ m with control := below } : Machine ν)
              exact .keeps (dropThread_same _).2
                ((congrArg (List.filterMap Resumption.post?) hLeft).trans hPosts)
      | _ => exact .keeps rfl hPosts

/-- What a step does to the message that is being written. -/
theorem drafts_step (m : Machine ν) : m.Drafts m.step := by
  unfold step
  cases hFocus : m.focus with
  | next => exact drafts_proceed hFocus
  | exec stmt => exact drafts_exec hFocus
  | complete value => exact drafts_complete hFocus
  | deliver value => exact drafts_deliver hFocus
  | unwind payload => exact drafts_propagate hFocus
  | offer region exception => exact drafts_offer (by unfold posts; rw [hFocus]; rfl)
  | leave region outcome => exact drafts_leave (by unfold posts; rw [hFocus]; rfl)
  | forward exception =>
      exact .perform rfl (posts_of_focus (by rw [hFocus]; rfl)) fun after uncaught =>
        posts_sent (m.store after) uncaught
  | drop handle => exact drafts_drop (posts_of_focus (by rw [hFocus]; rfl))
  | leaveScope scope => exact drafts_leaveScope (posts_of_focus (by rw [hFocus]; rfl))
  | write raising pieces => exact drafts_write hFocus
  | stopped how => exact .keeps rfl rfl

end

end Machine

/-! ## What is put onto the exception stack -/

namespace Context

section

variable {α β γ : Type} {view : Context → γ}

/-- A step leaves a part of every context as it is, also if it fails. -/
def Leaves (view : Context → γ) (step : Step α) : Prop :=
  ∀ context, view (leftBehind (step context)) = view context

/-- An answer by itself leaves every view of the context as it was. -/
theorem leaves_pure (answer : α) : Leaves view (pure answer : Step α) :=
  fun _ => rfl

/-- So does a failure by itself. -/
theorem leaves_throw (error : Error) : Leaves view (throw error : Step α) :=
  fun _ => rfl

/-- So does a failure because the stacks contradict a handle. -/
theorem leaves_fail (cause : Corruption) : Leaves view (fail cause : Step α) :=
  leaves_throw _

/-- A step that looks at the context leaves a view alone if what it goes on with
does. -/
theorem leaves_get {rest : Context → Step α}
    (h : ∀ context, Leaves view (rest context)) :
    Leaves view ((get : Step Context) >>= rest) :=
  fun context => h context context

/-- A change that a view does not see leaves it alone. -/
theorem leaves_modify {change : Context → Context}
    (h : ∀ context, view (change context) = view context) :
    Leaves view (modify change : Step Unit) :=
  h

/-- Two steps that leave a view alone leave it alone one after the other. -/
theorem leaves_bind {first : Step β} {rest : β → Step α} (hFirst : Leaves view first)
    (hRest : ∀ answer, Leaves view (rest answer)) :
    Leaves view (first >>= rest) := by
  intro context
  have hBefore := hFirst context
  change view (leftBehind (EStateM.bind first rest context)) = _
  unfold EStateM.bind
  generalize first context = outcome at hBefore
  cases outcome with
  | error error after => exact hBefore
  | ok answer after => exact (hRest answer after).trans hBefore

end

private theorem leaves_setState (visit : Visit) (state : RegionState) :
    Leaves records (setState visit state) := by
  refine leaves_get fun context => ?_
  cases context.regions.top? with
  | none => exact leaves_fail _
  | some region =>
      dsimp only
      split
      · exact leaves_bind (leaves_modify fun _ => rfl) fun _ => leaves_modify
          fun _ => rfl
      · exact leaves_fail _

private theorem leaves_catchInFlight (visit : Visit) :
    Leaves records (catchInFlight visit) := by
  refine leaves_bind (leaves_setState visit _) fun _ => leaves_get fun context => ?_
  cases context.inFlight with
  | none => exact leaves_fail _
  | some index =>
      refine leaves_bind (leaves_modify fun _ => rfl) fun _ => leaves_get
        fun context => ?_
      cases context.records.get? index with
      | none => exact leaves_fail _
      | some record => exact leaves_get fun _ => leaves_pure _

/-- Putting a record on top and doing something else then puts that record on top, or
changes no record. -/
theorem records_onRecords {α : Type} {f : Records → Except Error Records}
    {rest : Step α} (hRest : Leaves records rest) (context : Context) :
    (leftBehind (EStateM.bind (onRecords f) (fun _ => rest) context)).records =
      match f context.records with
      | .ok records => records
      | .error _ => context.records := by
  unfold EStateM.bind
  rw [onRecords_eq]
  cases f context.records with
  | error error => rfl
  | ok records => exact hRest _

private theorem records_raise (table : KindTable) (kind : Kind) (site : Site)
    (written : String) (context : Context) :
    (leftBehind (raise table kind site written context)).records =
      match context.records.raise kind (messageOf table kind written)
        site context.frames with
      | .ok records => records
      | .error _ => context.records := by
  refine records_onRecords (leaves_get fun raised => ?_) context
  split
  · exact leaves_bind (leaves_modify fun _ => rfl) fun _ => leaves_pure _
  · cases raised.current? with
    | none => exact leaves_throw _
    | some exception => exact leaves_pure _

/-- An exception that is sent on is put on top if something catches it; otherwise no
record changes. -/
theorem records_forward (exception : Exception) (context : Context) :
    (leftBehind (forward exception context)).records =
      match context.hasHandler, context.records.readmit exception with
      | true, .ok records => records
      | _, _ => context.records := by
  have hStep : forward exception context =
      if context.hasHandler = true then
        EStateM.bind (onRecords fun records => records.readmit exception) (fun _ => do
          modify fun context =>
            { context with inFlight := some (context.records.depth - 1) }
          return none) context
      else .ok (some exception) context := by
    change (if context.hasHandler = true then _ else _ : Step _) context = _
    split <;> rfl
  rw [hStep]
  cases context.hasHandler with
  | false => rfl
  | true =>
      rw [if_pos rfl]
      refine (records_onRecords ?_ context).trans ?_
      · exact leaves_bind (leaves_modify fun _ => rfl) fun _ => leaves_pure _
      · cases context.records.readmit exception <;> rfl

/-- The newest escape is taken by the region that owns it. -/
theorem takeEscape_eq (owner : Nat) (context : Context) : takeEscape owner context =
    match context.escapes with
    | escape :: older =>
        if escape.owner = owner then .ok (some escape) { context with escapes := older
          } else .ok none context
    | [] => .ok none context := by
  change ((match context.escapes with | escape :: older => _ | [] => _ : Step _)
    context) = _
  cases context.escapes with
  | nil => rfl
  | cons escape older =>
      dsimp only
      split <;> rfl

/-- A region whose body has returned puts the record of its newest escape on top. -/
theorem records_claimEscape (slots : Slots) (visit : Visit) (context : Context) :
    (leftBehind (claimEscape slots visit context)).records =
      match context.escapes with
      | [] => context.records
      | escape :: _ =>
          if escape.owner = visit.id then
            match context.records.raise
              ((context.escapeKind.bind slots.get?).getD .illegalEscape)
              (Bounded.write { limit := context.messageLimit }
                (escapeText escape)).1.text escape.site context.frames with
            | .ok records => records
            | .error _ => context.records
          else context.records := by
  change (leftBehind (EStateM.bind (takeEscape visit.id) _ context)).records = _
  unfold EStateM.bind
  rw [takeEscape_eq]
  cases context.escapes with
  | nil => rfl
  | cons escape older =>
      dsimp only
      by_cases hOwner : escape.owner = visit.id
      · rw [if_pos hOwner, if_pos hOwner]
        refine records_onRecords ?_ { context with escapes := older }
        refine leaves_bind (leaves_modify fun _ => rfl)
          fun _ => leaves_bind (leaves_modify fun _ => rfl) fun _ => ?_
        exact leaves_bind (leaves_catchInFlight visit) fun _ => leaves_pure _
      · rw [if_neg hOwner, if_neg hOwner]
        rfl

end Context

namespace Operation

variable {context : Context} {record : Record}

/-- A stack has one record more only if that was put on top. -/
theorem placed_of_live {records : Records} {placed : Except Error Records}
    (h : (match placed with
        | .ok after => after
        | .error _ => records).live = record :: records.live) :
    ∃ after, placed = .ok after ∧ after.live = record :: records.live := by
  cases placed with
  | ok after => exact ⟨after, rfl, h⟩
  | error error => exact absurd h.symm (List.cons_ne_self _ _)

/-- The record that a raise has put on top. -/
theorem record_of_raise {records after : Records} {kind : Kind} {message : String}
    {origin : Site} {frames : Frames}
    (hRaise : records.raise kind message origin frames = .ok after)
    (hLive : after.live = record :: records.live) :
    record = ⟨kind, message, origin, .live frames.depth⟩ := by
  rw [Records.live_raise hRaise] at hLive
  exact (List.cons.inj hLive).1.symm

/-- What puts a record on top: a raise, an exception that is sent on, and an escape that
is reported. -/
theorem puts (operation : Operation)
    (h : (leftBehind (operation.step context)).records.live =
      record :: context.records.live) :
    (∃ table kind site written, operation = .raise table kind site written ∧
        record =
          ⟨kind, messageOf table kind written, site, .live context.frames.depth⟩) ∨
      (∃ exception, operation = .forward exception ∧ record = .ofException exception) ∨
      ∃ slots visit escape older kind, operation = .claimEscape slots visit ∧
        context.escapes = escape :: older ∧
        escape.owner = visit.id ∧ record =
          ⟨kind,
          (Bounded.write { limit := context.messageLimit } (escapeText escape)).1.text,
          escape.site, .live context.frames.depth⟩ := by
  have hMore :
      (context.stock .exceptions).depth <
      ((leftBehind (operation.step context)).stock .exceptions).depth :=
    Nat.lt_of_lt_of_eq (Nat.lt_succ_self _) (Stack.depth_of_cons h).symm
  have hStocks := (operation.takes_step context).stocks .exceptions
  cases operation with
  | raise table kind site written =>
      refine .inl ⟨table, kind, site, written, rfl, ?_⟩
      rw [step, leftBehind_discard, records_raise] at h
      obtain ⟨after, hRaise, hLive⟩ := placed_of_live h
      exact record_of_raise hRaise hLive
  | forward exception =>
      refine .inr (.inl ⟨exception, rfl, ?_⟩)
      rw [step, leftBehind_discard, records_forward] at h
      cases hHandler : context.hasHandler with
      | false =>
          rw [hHandler] at h
          exact absurd h.symm (List.cons_ne_self _ _)
      | true =>
          rw [hHandler] at h
          cases hPushes : context.records.readmit exception with
          | error error =>
              rw [hPushes] at h
              exact absurd h.symm (List.cons_ne_self _ _)
          | ok after =>
              rw [hPushes] at h
              have hPushed := (Stack.live_push hPushes).1
              exact (List.cons.inj (h.symm.trans hPushed)).1
  | claimEscape slots visit =>
      refine .inr (.inr ?_)
      rw [step, leftBehind_discard, records_claimEscape] at h
      cases hEscapes : context.escapes with
      | nil =>
          rw [hEscapes] at h
          exact absurd h.symm (List.cons_ne_self _ _)
      | cons escape older =>
          rw [hEscapes] at h
          dsimp only at h
          by_cases hOwner : escape.owner = visit.id
          · rw [if_pos hOwner] at h
            obtain ⟨after, hRaise, hLive⟩ := placed_of_live h
            exact ⟨slots, visit, escape, older, _, rfl, rfl, hOwner,
              record_of_raise hRaise hLive⟩
          · rw [if_neg hOwner] at h
            exact absurd h.symm (List.cons_ne_self _ _)
  | leave visit unwinding => exact absurd hMore (Nat.not_lt.2 hStocks.falls)
  | abandon visit => exact absurd hMore (Nat.not_lt.2 hStocks.falls)
  | beginHandling visit => exact absurd hMore (Nat.not_lt.2 hStocks.falls)
  | closeScope mark => exact absurd hMore (Nat.not_lt.2 hStocks.falls)
  | unshield mark => exact absurd hMore (Nat.not_lt.2 hStocks.falls)
  | leaveCall entry unwinding => exact absurd hMore (Nat.not_lt.2 hStocks.falls)
  | _ => exact absurd hMore (Nat.not_lt.2 (Nat.le_of_eq (hStocks.still (by simp))))

end Operation

/-! ## The message along a run -/

namespace Machine

/-- The message that is being written after a step. -/
def drafting (m : Machine ν) (draft : Option (Draft ν)) : Option (Draft ν) :=
  if !m.step.inUse then
    none
  else if m.inUse then
    draft
  else
    match m.focus with
    | .exec (.raise ref site message) =>
        (ref.resolve? m.registry.slots).map fun kind => ⟨kind, site, message⟩
    | _ => none

/-- The message that is being written after so many steps of a thread that has just been
started. -/
def draft (start : Machine ν) : Nat → Option (Draft ν)
  | 0 => none
  | count + 1 => (steps count start).drafting (start.draft count)

end Machine

/-- A thread that has just been started is about to run its body, or unwinds already
because there is no memory for its context. -/
theorem Machine.code_start (process : Process) (auto : Bool) (limits : Option Limits)
    (body : List (Stmt ν)) :
    (start process auto limits body).inUse = false ∧
      ((start process auto limits body).focus = .next ∧
          (start process auto limits body).control =
            [.block "" body [] none, .thread auto] ∨
        (start process auto limits body).focus = .unwind overflow ∧
          (start process auto limits body).control = []) := by
  let fresh : Machine ν :=
    { toProcess := process
      control := [.block "" body [] none, .thread auto]
      focus := .next }
  have hUse := (openThread_same fresh limits).2
  have hControl := control_openThread fresh limits
  have hFocus := focus_openThread fresh limits
  unfold start
  cases auto with
  | false => exact ⟨rfl, .inl ⟨rfl, rfl⟩⟩
  | true =>
      simp only [if_true]
      generalize hResult : openThread _ _ = result
      change fresh.openThread limits = result at hResult
      rw [hResult] at hUse hControl hFocus
      obtain ⟨outcome, opened⟩ := result
      cases outcome with
      | opened => exact ⟨hUse, .inl ⟨hFocus, hControl⟩⟩
      | refused error => exact ⟨hUse, .inl ⟨hFocus, hControl⟩⟩
      | overflowed => exact ⟨hUse, .inr ⟨rfl, rfl⟩⟩

/-- A thread that has just been started writes nothing. -/
theorem Machine.posts_start (process : Process) (auto : Bool) (limits : Option Limits)
    (body : List (Stmt ν)) :
    (start process auto limits body).inUse = false ∧
    (start process auto limits body).posts = [] := by
  obtain ⟨hUse, hCode⟩ := code_start process auto limits body
  refine ⟨hUse, ?_⟩
  unfold posts
  obtain ⟨hFocus, hControl⟩ | ⟨hFocus, hControl⟩ := hCode
  all_goals
    rw [hFocus, hControl]
    rfl

/-- What is known of a thread after so many steps: its context is the one of the
configuration in force, and if it writes a message, then writing what is left of it
comes to the same as writing all of it at once. -/
structure Drafted (m : Machine ν) (draft : Option (Draft ν)) : Prop where
  limit : ∀ context, m.context = some context → ∃ config, m.config = some config ∧
    context.messageLimit = config.messageLimit
  free : m.inUse = false → draft = none ∧ ∀ post ∈ m.posts, post = .region
  writing : m.inUse = true → ∃ begun raising rest regions config, draft = some begun ∧
    m.config = some config ∧
    m.posts = .draft raising rest :: regions ∧ (∀ post ∈ regions, post = .region) ∧
    raising.kind = begun.kind ∧ raising.site = begun.site ∧
    raising.buffer.writeAll (rest.map Piece.said) =
      Bounded.writeAll { limit := config.messageLimit } (begun.message.map Piece.said)

namespace Drafted

variable {m after : Machine ν} {draft : Option (Draft ν)}

private theorem limit_of_leads (h : ∀ context, m.context = some context →
      ∃ config, m.config = some config ∧ context.messageLimit = config.messageLimit)
        (hLeads : m.Leads after)
    (context : Context) (hContext : after.context = some context) :
    ∃ config, after.config = some config ∧ context.messageLimit =
      config.messageLimit := by
  cases hBefore : m.context with
  | none =>
      obtain ⟨config, limits, hConfig, rfl⟩ := hLeads.opened hBefore hContext
      exact ⟨config, hConfig, rfl⟩
  | some before =>
      obtain ⟨config, hConfig, hLimit⟩ := h before hBefore
      refine ⟨config, hLeads.config config hConfig, Eq.trans ?_ hLimit⟩
      cases hLeads.carries hBefore hContext with
      | keeps => rfl
      | annotates => rfl
      | @performs operation => exact (operation.takes_step before).messageLimit

/-- While no message is written, only regions wait on the way. -/
theorem top_of_free (h : Drafted m draft) (hFree : m.inUse = false) {post : Post ν}
    {older : List (Post ν)} (hPosts : m.posts = post :: older) :
    post = .region ∧ ∀ post ∈ older, post = .region :=
  List.forall_mem_cons.1 (hPosts ▸ (h.free hFree).2)

/-- While a message is written, the first thing on the way is that message, and the rest
are regions. -/
theorem top_of_writing (h : Drafted m draft) (hUse : m.inUse = true) {post : Post ν}
    {older : List (Post ν)} (hPosts : m.posts = post :: older) :
    ∃ begun raising rest config, draft = some begun ∧ m.config = some config ∧
      post = .draft raising rest ∧ (∀ post ∈ older, post = .region) ∧
        raising.kind = begun.kind ∧ raising.site = begun.site ∧
      raising.buffer.writeAll (rest.map Piece.said) =
        Bounded.writeAll { limit := config.messageLimit }
          (begun.message.map Piece.said) := by
  obtain ⟨begun, raising, rest, regions, config, hDraft, hConfig, hWaits, hRest⟩ :=
    h.writing hUse
  obtain ⟨rfl, rfl⟩ := List.cons.inj (hPosts.symm.trans hWaits)
  exact ⟨begun, raising, rest, config, hDraft, hConfig, rfl, hRest⟩

/-- A step goes on with the draft of the message that is being written, and with nothing
else. -/
theorem step (h : Drafted m draft) : Drafted m.step (m.drafting draft) := by
  have hLeads := m.leads_step
  refine ⟨limit_of_leads h.limit hLeads, fun hUse => ?_, fun hUse => ?_⟩
  · refine ⟨by simp only [Machine.drafting, hUse, Bool.not_false, if_true], ?_⟩
    cases m.drafts_step with
    | keeps hSame hPosts =>
        rw [hPosts]
        exact (h.free (hSame.symm.trans hUse)).2
    | opens hFree _ hPosts =>
        rw [hPosts]
        exact List.forall_mem_cons.2 ⟨rfl, (h.free hFree).2⟩
    | closes hSame hPosts => exact (h.top_of_free (hSame.symm.trans hUse) hPosts).2
    | begins _ _ _ _ hBegun _ => cases hUse.symm.trans hBegun
    | goesOn _ hSame hBefore _ =>
        cases (h.top_of_free (hSame.symm.trans hUse) hBefore).1
    | ends _ hPosts =>
        cases hFree : m.inUse with
        | false => exact (h.top_of_free hFree hPosts).2
        | true =>
            obtain ⟨_, _, _, _, -, -, -, hRegions, -⟩ := h.top_of_writing hFree hPosts
            exact hRegions
  · cases m.drafts_step with
    | keeps hSame hPosts =>
        have hBusy := hSame.symm.trans hUse
        obtain ⟨begun, raising, rest, regions, config, rfl, hConfig, hWaits, hRest⟩ :=
          h.writing hBusy
        refine ⟨begun, raising, rest, regions, config, ?_, hLeads.config config hConfig,
          hPosts.trans hWaits, hRest⟩
        simp only [Machine.drafting, hUse, hBusy, Bool.not_true, Bool.false_eq_true,
          if_false, if_true]
    | opens _ hFree _ => cases hUse.symm.trans hFree
    | closes hSame hPosts =>
        obtain ⟨_, _, _, _, -, -, hWrites, -⟩ :=
          h.top_of_writing (hSame.symm.trans hUse) hPosts
        cases hWrites
    | @begins ref site message kind context hFocus hKind hFree hContext _ hPosts =>
        obtain ⟨config, hConfig, hLimit⟩ := h.limit context hContext
        refine ⟨⟨kind, site, message⟩, _, _, _, config, ?_,
          hLeads.config config hConfig, hPosts, (h.free hFree).2, rfl, rfl, ?_⟩
        · simp only [Machine.drafting, hUse, hFree, hFocus, hKind, Bool.not_true,
            Bool.false_eq_true, if_false, Option.map_some]
        · rw [hLimit]
    | @goesOn raising piece rest buffer older hWrite hSame hBefore hAfter =>
        have hBusy := hSame.symm.trans hUse
        obtain ⟨begun, _, _, config, rfl, hConfig, hWrites, hRegions, hKind, hSite,
            hBuffer⟩ := h.top_of_writing hBusy hBefore
        cases hWrites
        refine ⟨begun, _, rest, older, config, ?_, hLeads.config config hConfig, hAfter,
          hRegions, hKind, hSite, ?_⟩
        · simp only [Machine.drafting, hUse, hBusy, Bool.not_true, Bool.false_eq_true,
            if_false, if_true]
        · rw [← hBuffer, List.map_cons, Bounded.writeAll, hWrite]
    | ends hFree _ => cases hUse.symm.trans hFree

/-- A thread that starts writes nothing. -/
theorem start {ν : Type} (process : Process) (auto : Bool) (limits : Option Limits)
    (body : List (Stmt ν)) :
    Drafted (Machine.start process auto limits body) none := by
  obtain ⟨fresh, hNone, hLeads⟩ := Machine.leads_start process auto limits body
  obtain ⟨hFree, hPosts⟩ := Machine.posts_start process auto limits body
  refine ⟨fun context hContext => ?_, fun _ => ⟨rfl, fun post hPost => ?_⟩,
    fun hUse => ?_⟩
  · exact limit_of_leads (fun _ hFound => by rw [hNone] at hFound; cases hFound)
      hLeads context hContext
  · rw [hPosts] at hPost
    cases hPost
  · cases hUse.symm.trans hFree

private theorem steps {ν : Type} (process : Process) (auto : Bool)
    (limits : Option Limits) (body : List (Stmt ν)) (count : Nat) :
    Drafted (Machine.steps count (.start process auto limits body))
      ((Machine.start process auto limits body).draft count) := by
  induction count with
  | zero => exact start process auto limits body
  | succ count ih =>
      rw [Machine.steps_succ]
      exact ih.step

end Drafted

/-! ## The law -/

/-- What is left of a message is written at once where the raise is finished. -/
theorem Raising.writeAll_of_finished? {raising finished : Raising}
    {pieces : List (Piece ν)} (h : raising.finished? pieces = some finished) :
    finished.kind = raising.kind ∧ finished.site = raising.site ∧
      finished.buffer = raising.buffer.writeAll (pieces.map Piece.said) := by
  unfold finished? at h
  split at h
  · cases h
    exact ⟨rfl, rfl, rfl⟩
  · next text rest =>
      rw [List.map_cons, Bounded.writeAll]
      cases hWrite : raising.buffer.write text with
      | mk buffer fits =>
          rw [hWrite] at h
          cases fits with
          | true => cases h
          | false =>
              cases h
              refine ⟨rfl, rfl, ?_⟩
              simp only [Piece.said, hWrite]
  · cases h

/-- What a record says that the next step puts onto the exception stack, if messages may
have so many bytes. -/
inductive Machine.Says (m : Machine ν) (limit : Nat) (draft : Option (Draft ν))
    (escapes : List Escape) : Record → Prop
  /-- What was written is the longest beginning of the text that fits. -/
  | written {begun : Draft ν} {message : String} {trace : Trace}
    (hDraft : draft = some begun)
    (hLongest : Bounded.Longest limit begun.text message) (hWritten : message ≠ "") :
      Says m limit draft escapes ⟨begun.kind, message, begun.site, trace⟩
  /-- Nothing was written, or nothing of it fits: the kind says what it says of itself,
  whole. -/
  | unsaid {begun : Draft ν} {trace : Trace} (hDraft : draft = some begun)
      (hLongest : Bounded.Longest limit begun.text "") :
      Says m limit draft escapes
        ⟨begun.kind, m.registry.table.defaultMessage begun.kind, begun.site, trace⟩
  /-- The body of a region has returned, and the newest escape is the one that the
  region has to report. -/
  | escaped {value : Option ν} {region : Protected ν} {below : List (Resumption ν)}
      {escape : Escape} {older : List Escape}
      {kind : Kind} {message : String} {trace : Trace}
      (hFocus : m.focus = .deliver value)
      (hControl : m.control = .body region :: below)
      (hEscapes : escapes = escape :: older)
      (hOwner : escape.owner = region.visit.id)
      (hLongest : Bounded.Longest limit (escapeText escape) message) :
      Says m limit draft escapes ⟨kind, message, escape.site, trace⟩
  /-- An exception that is sent on has its message already. -/
  | sentOn {exception : Exception} (hFocus : m.focus = .forward exception) :
      Says m limit draft escapes (.ofException exception)

/-- A record that was not sent on keeps to the limit, or says what its kind says of
itself. -/
theorem Machine.Says.bounded {m : Machine ν} {limit : Nat} {draft : Option (Draft ν)}
    {escapes : List Escape} {record : Record} (h : m.Says limit draft escapes record) :
    (∃ exception, m.focus = .forward exception) ∨
      record.message.utf8ByteSize ≤ limit ∨ record.message =
        m.registry.table.defaultMessage record.kind := by
  cases h with
  | written hDraft hLongest hWritten => exact .inr (.inl hLongest.fits)
  | unsaid hDraft hLongest => exact .inr (.inr rfl)
  | escaped hFocus hControl hEscapes hOwner hLongest => exact .inr (.inl hLongest.fits)
  | sentOn hFocus => exact .inl ⟨_, hFocus⟩

private theorem Drafted.says {m : Machine ν} {draft : Option (Draft ν)}
    {before after : Context} {record : Record} {config : Config} (h : Drafted m draft)
    (hConfig : m.config = some config) (hBefore : m.context = some before)
    (hAfter : m.step.context = some after)
    (hPut : after.records.live = record :: before.records.live) :
    m.Says config.messageLimit draft before.escapes record := by
  have never {records : Records} (hSame : records.live = record :: records.live) :
      False :=
    List.cons_ne_self _ _ hSame.symm
  obtain ⟨found, hFound, hLimit⟩ := h.limit before hBefore
  obtain rfl := Option.some.inj (hConfig.symm.trans hFound)
  cases (m.leads_step).carries hBefore hAfter with
  | keeps => exact (never hPut).elim
  | annotates => exact (never hPut).elim
  | @performs operation calls =>
      obtain ⟨table, kind, site, written, rfl, rfl⟩ | ⟨exception, rfl, rfl⟩ |
        ⟨slots, visit, escape, older, kind, rfl, hEscapes, hOwner, rfl⟩ :=
          operation.puts hPut
      · cases calls with
        | @raise raising finished pieces hFocus hFinished =>
            obtain ⟨hKind, hSite, hBuffer⟩ := Raising.writeAll_of_finished? hFinished
            have hPosts :
                m.posts = .draft raising pieces ::
                m.control.filterMap Resumption.post? := by
              unfold Machine.posts
              rw [hFocus]
              rfl
            cases hUse : m.inUse with
            | false => cases (h.top_of_free hUse hPosts).1
            | true =>
                obtain ⟨begun, _, _, config', rfl, hConfig', hWrites, -, hBegun, hAt,
                    hRest⟩ := h.top_of_writing hUse hPosts
                obtain rfl := Option.some.inj (hConfig.symm.trans hConfig')
                cases hWrites
                have hLongest :=
                  Bounded.longest_writeAll config.messageLimit
                  (begun.message.map Piece.said)
                rw [← hRest, ← hBuffer] at hLongest
                rw [hKind, hSite, hBegun, hAt]
                unfold messageOf
                by_cases hEmpty : finished.buffer.text = ""
                · rw [hEmpty] at hLongest ⊢
                  exact .unsaid rfl hLongest
                · rw [if_neg (by rwa [String.isEmpty_iff])]
                  exact .written rfl hLongest hEmpty
      · cases calls with
        | forward hFocus => exact .sentOn hFocus
      · cases calls with
        | claim hFocus hControl =>
            rw [hLimit]
            exact .escaped hFocus hControl hEscapes hOwner (Bounded.longest_write _ _)

/-- A raise whose message is complete puts its record on top, if there is room for
it. -/
theorem Machine.puts_of_finished {m : Machine ν} {raising finished : Raising}
    {pieces : List (Piece ν)} {before : Context}
    (hFocus : m.focus = .write raising pieces)
    (hFinished : raising.finished? pieces = some finished)
    (hBefore : m.context = some before)
    (hRoom : before.records.live.length < before.records.limit) :
    ∃ after record, m.step.context = some after ∧ after.records.live =
      record :: before.records.live := by
  obtain ⟨records, hRaise⟩ : ∃ records, before.records.raise finished.kind
      (Context.messageOf m.registry.table finished.kind finished.buffer.text)
        finished.site before.frames = .ok records := by
    unfold Records.raise Stack.refill
    rw [Stack.checkCapacity_eq_ok.2 hRoom]
    exact ⟨_, rfl⟩
  have hLeft :=
    records_raise m.registry.table finished.kind finished.site finished.buffer.text
    before
  rw [hRaise] at hLeft
  have hStep : m.step.context = some
      { leftBehind (Context.raise m.registry.table finished.kind finished.site
          finished.buffer.text before) with
        journal := [] } := by
    simp only [step, hFocus, write_of_finished? hFinished]
    unfold finishRaise
    rw [perform_settled (m := { m with inUse := false }) _ rfl hBefore]
    refine context_settled (fun stored uncaught => ?_) _
    cases uncaught with
    | none => rfl
    | some exception => exact context_terminate _ _
  exact ⟨_, _, hStep, (congrArg Stack.live hLeft).trans (Records.live_raise hRaise)⟩

/-- Whatever a run puts onto the exception stack says the longest beginning of what it
is to say that fits into the number of bytes that the configuration allows. A raise of
whose message nothing is written, because there is nothing or because its first
character does not fit, says what its kind says of itself, which is not cut. So a record
that was not sent on is longer than a message may be only where its kind's own message
is. And whenever a message is complete, its record is put on the stack, if there is
room.

The message is written piece by piece, with code that runs in between, but what is
written depends only on the pieces. `Draft` keeps what was to be written, from the step
that begins the raise to the one that completes it. -/
theorem said_steps {ν : Type} (process : Process) (auto : Bool) (limits : Option Limits)
    (body : List (Stmt ν)) (count : Nat) (before : Context)
    (hBefore : (Machine.steps count (.start process auto limits body)).context =
      some before) :
    ∃ config, (Machine.steps count (.start process auto limits body)).config =
      some config ∧
      (∀ after record,
        (Machine.steps (count + 1) (.start process auto limits body)).context =
        some after →
        after.records.live = record :: before.records.live →
          (Machine.steps count (.start process auto limits body)).Says
            config.messageLimit
              ((Machine.start process auto limits body).draft count) before.escapes
                record ∧
            ((∃ exception,
              (Machine.steps count (.start process auto limits body)).focus =
              .forward exception) ∨
              record.message.utf8ByteSize ≤ config.messageLimit ∨
              record.message =
                (Machine.steps count
                  (.start process auto limits body)).registry.table.defaultMessage
                  record.kind)) ∧
      ∀ raising pieces finished,
        (Machine.steps count (.start process auto limits body)).focus =
        .write raising pieces →
        raising.finished? pieces = some finished →
          before.records.live.length < before.records.limit →
          ∃ after record,
            (Machine.steps (count + 1) (.start process auto limits body)).context =
            some after ∧
            after.records.live = record :: before.records.live := by
  have hDrafted := Drafted.steps process auto limits body count
  obtain ⟨config, hConfig, -⟩ := hDrafted.limit before hBefore
  rw [Machine.steps_succ]
  refine ⟨config, hConfig, fun after record hAfter hPut => ?_,
    fun raising pieces finished hFocus hFinished hRoom => ?_⟩
  · have hSays := hDrafted.says hConfig hBefore hAfter hPut
    exact ⟨hSays, hSays.bounded⟩
  · exact Machine.puts_of_finished hFocus hFinished hBefore hRoom

/-- A process in which messages may have three bytes. -/
def threeBytes : Process :=
  { config := some { messageLimit := 3 } }

/-- A message of six bytes in two pieces, between which code runs. -/
def writesInPieces : List (Stmt Nat) :=
  [.protect 1 ⟨"main", 1, "main"⟩ .run [.mk (.direct .illegalEscape) "e" []]
    [.raise (.direct .illegalEscape) ⟨"main", 2, "main"⟩
      [.text "a", .run [.say "writing"], .text "é€"]]]

/-- The law speaks of the run of `writesInPieces`: of its message the first two
characters fit into three bytes. -/
theorem said_of_writesInPieces :
    ∃ (count : Nat) (before after : Context) (record : Record),
      (Machine.steps count (.start threeBytes true none writesInPieces)).context =
        some before ∧
        (Machine.steps (count + 1)
          (.start threeBytes true none writesInPieces)).context = some after ∧
        after.records.live = record :: before.records.live ∧ record.message = "aé" ∧
        (Machine.steps count (.start threeBytes true none writesInPieces)).Says 3
          ((Machine.start threeBytes true none writesInPieces).draft count)
            before.escapes record := by
  have hRun :
    ((Machine.steps 11 (.start threeBytes true none writesInPieces)).context.any
      fun before =>
      (Machine.steps 12 (.start threeBytes true none writesInPieces)).context.any
        fun after =>
        decide (before.records.live = []) &&
          decide (after.records.live.map Record.message = ["aé"])) = true := by
    decide +kernel
  have hConfig :
      (Machine.steps 11 (.start threeBytes true none writesInPieces)).config =
      some { messageLimit := 3 } := by
    decide +kernel
  obtain ⟨before, hBefore, hThen⟩ := (Option.any_eq_true _ _).1 hRun
  obtain ⟨after, hAfter, hLive⟩ := (Option.any_eq_true _ _).1 hThen
  rw [Bool.and_eq_true, decide_eq_true_eq, decide_eq_true_eq] at hLive
  obtain ⟨record, hRecords, hMessage⟩ := List.map_eq_singleton_iff.1 hLive.2
  have hPut : after.records.live = record :: before.records.live := by
    rw [hRecords, hLive.1]
  obtain ⟨config, hFound, hSaid, -⟩ :=
    said_steps threeBytes true none writesInPieces 11 before hBefore
  obtain rfl := Option.some.inj (hConfig.symm.trans hFound)
  exact ⟨11, before, after, record, hBefore, hAfter, hPut, hMessage,
    (hSaid after record hAfter hPut).1⟩

/-- A raise without a message. -/
def raisesWithoutMessage : List (Stmt Nat) :=
  [.raise (.direct .illegalEscape) ⟨"main", 1, "main"⟩ []]

/-- What a kind says of itself is not cut: a message that nobody wrote can be longer
than a message may be.

The message is empty, so the kind speaks for itself, at any length. -/
theorem unsaid_exceeds :
    ∃ (count : Nat) (before after : Context) (record : Record) (draft : Draft Nat),
      (Machine.steps count (.start threeBytes true none raisesWithoutMessage)).context =
        some before ∧
        (Machine.steps (count + 1)
          (.start threeBytes true none raisesWithoutMessage)).context = some after ∧
        after.records.live = record :: before.records.live ∧
        (Machine.start threeBytes true none raisesWithoutMessage).draft count =
          some draft ∧ draft.text = "" ∧
        3 < record.message.utf8ByteSize ∧
        ¬ Bounded.Longest 3 (KindTable.initial.defaultMessage record.kind)
          record.message := by
  have hRun :
    ((Machine.steps 2 (.start threeBytes true none raisesWithoutMessage)).context.any
      fun before =>
      (Machine.steps 3 (.start threeBytes true none raisesWithoutMessage)).context.any
        fun after =>
        decide (before.records.live = []) &&
          decide (after.records.live.map (fun record => record.message.utf8ByteSize) =
            [50])) = true := by decide +kernel
  have hDraft :
    (((Machine.start threeBytes true none raisesWithoutMessage).draft 2).any
      fun draft => decide (draft.text = "")) =
      true := by decide +kernel
  obtain ⟨before, hBefore, hThen⟩ := (Option.any_eq_true _ _).1 hRun
  obtain ⟨after, hAfter, hLive⟩ := (Option.any_eq_true _ _).1 hThen
  obtain ⟨draft, hFound, hText⟩ := (Option.any_eq_true _ _).1 hDraft
  rw [Bool.and_eq_true, decide_eq_true_eq, decide_eq_true_eq] at hLive
  obtain ⟨record, hRecords, hSize⟩ := List.map_eq_singleton_iff.1 hLive.2
  have hPut : after.records.live = record :: before.records.live := by
    rw [hRecords, hLive.1]
  have hLong : 3 < record.message.utf8ByteSize := by omega
  refine ⟨2, before, after, record, draft, hBefore, hAfter, hPut, hFound,
    of_decide_eq_true hText, hLong, fun hLongest => ?_⟩
  exact absurd hLongest.fits (Nat.not_le.2 hLong)

end Unwinding
