import Unwinding.Proofs.Drafts
import Unwinding.Text.Boundary

/-!
# Cutting a text at a byte

A text that is written piece by piece into a buffer is cut once, at the first piece that
does not fit. That this is the same as cutting the whole text at its last boundary
within the limit has two sides. Within the piece, the search for a boundary goes
backwards through bytes: it ends, because the beginning of a text is a boundary, and
what it cuts off is what does not fit of the characters (`writeBytes?_eq`). Between the
pieces, the room left is what the pieces before have left, and nothing is written after
a cut (`text_writeAll_of_room`).

## Main results

* `boundaryUpTo?_spec` : the search finds the last boundary.
* `slice?_eq_some_iff` : a cut leaves a text just at a boundary.
* `writeAllBytes?_eq` : writing bytes is writing characters.
* `writeAll_exact` : what a buffer holds after any pieces.
-/

namespace Unwinding.Bounded

/-! ## Boundaries -/

/-- A text is cut at a boundary if it consists of the part before it and the rest. -/
theorem isBoundary_iff {text : String} {offset : Nat} :
    isBoundary text offset = true ↔ ∃ part rest, text = part ++ rest ∧
      part.utf8ByteSize = offset := by
  unfold isBoundary
  rw [String.Pos.Raw.isValid_eq_true_iff, String.Pos.Raw.isValid_iff_exists_append]
  constructor
  · rintro ⟨part, rest, hText, hOffset⟩
    exact ⟨part, rest, hText, (congrArg String.Pos.Raw.byteIdx hOffset).symm⟩
  · rintro ⟨part, rest, hText, rfl⟩
    exact ⟨part, rest, hText, rfl⟩

private theorem isBoundary_zero (text : String) : isBoundary text 0 = true :=
  isBoundary_iff.2 ⟨"", text, String.empty_append.symm, rfl⟩

/-- The search ends, and no boundary lies between its result and where it began. -/
theorem boundaryUpTo?_spec (text : String) (offset : Nat) :
    ∃ found, boundaryUpTo? text offset = some found ∧ found ≤ offset ∧
      isBoundary text found = true ∧
      ∀ other, other ≤ offset → isBoundary text other = true → other ≤ found := by
  induction offset with
  | zero =>
      exact ⟨0, if_pos (isBoundary_zero text), Nat.le_refl 0, isBoundary_zero text,
        fun _ hOther _ => hOther⟩
  | succ offset ih =>
      by_cases hHere : isBoundary text (offset + 1) = true
      · exact ⟨offset + 1, if_pos hHere, Nat.le_refl _, hHere, fun _ hOther _ => hOther⟩
      · obtain ⟨found, hFound, hLe, hBoundary, hLast⟩ := ih
        refine ⟨found, (if_neg hHere).trans hFound, Nat.le_succ_of_le hLe, hBoundary,
          fun other hOther hAlso => ?_⟩
        rcases Nat.lt_or_eq_of_le hOther with hBelow | rfl
        · exact hLast other (Nat.le_of_lt_succ hBelow) hAlso
        · exact absurd hAlso hHere

/-- The bytes up to a place are a text just if the place is a boundary. -/
theorem slice?_eq_some_iff {text part : String} {offset : Nat} :
    slice? text offset = some part ↔ (∃ rest, text = part ++ rest) ∧ part.utf8ByteSize =
      offset := by
  constructor
  · intro h
    unfold slice? at h
    split at h
    · next hInside =>
        unfold String.fromUTF8? at h
        split at h
        · next hValid =>
            have hBoundary : isBoundary text offset = true := by
              unfold isBoundary
              rw [String.Pos.Raw.isValid_eq_true_iff,
                String.Pos.Raw.isValid_iff_isValidUTF8_extract_zero]
              exact ⟨hInside, hValid⟩
            obtain ⟨first, rest, rfl, rfl⟩ := isBoundary_iff.1 hBoundary
            obtain rfl : first = part := by
              rw [← String.toByteArray_inj, ← Option.some.inj h]
              simp [String.fromUTF8, ByteArray.extract_append_eq_left]
            exact ⟨⟨rest, rfl⟩, rfl⟩
        · cases h
    · cases h
  · rintro ⟨⟨rest, rfl⟩, rfl⟩
    have hInside : part.utf8ByteSize ≤ (part ++ rest).utf8ByteSize := by
      rw [String.utf8ByteSize_append]
      exact Nat.le_add_right _ _
    have hBytes : (part ++ rest).toByteArray.extract 0 part.utf8ByteSize =
        part.toByteArray := by
      rw [String.toByteArray_append, ← String.size_toByteArray]
      exact ByteArray.extract_append_eq_left rfl
    unfold slice? String.fromUTF8?
    rw [if_pos hInside]
    simp only [hBytes]
    rw [dif_pos part.isValidUTF8]
    rfl

/-! ## Bytes and characters -/

/-- A part that ends at the last boundary within the room is the cut of the characters.
What else fitted after the part would end at a later boundary. -/
theorem fit_of_last {text part rest : String} {room : Nat} (hText : text = part ++ rest)
    (hFits : part.utf8ByteSize ≤ room)
    (hLast : ∀ other, other ≤ room → isBoundary text other = true →
      other ≤ part.utf8ByteSize) :
    fit room text = part := by
  subst hText
  rw [fit_append rest hFits]
  obtain ⟨more, hRest⟩ := (longest_fit (room - part.utf8ByteSize) rest).begins
  have hRoom := (longest_fit (room - part.utf8ByteSize) rest).fits
  generalize fit (room - part.utf8ByteSize) rest = next at hRest hRoom ⊢
  have hBoundary : isBoundary (part ++ rest) (part ++ next).utf8ByteSize = true :=
    isBoundary_iff.2 ⟨part ++ next, more, by rw [hRest, String.append_assoc], rfl⟩
  rw [String.utf8ByteSize_append] at hBoundary
  have hNothing := hLast _ (by omega) hBoundary
  have hZero : next.utf8ByteSize = 0 := by omega
  rw [String.utf8ByteSize_eq_zero_iff.1 hZero, String.append_empty]

/-- Writing the bytes of a piece is writing its characters: the search finds a boundary,
and the cut leaves a text. -/
theorem writeBytes?_eq (buffer : Bounded) (piece : String) :
    buffer.writeBytes? piece = some (buffer.write piece) := by
  unfold writeBytes? write
  by_cases hFits : piece.utf8ByteSize ≤ buffer.room
  · rw [if_pos hFits, if_pos hFits]
  · obtain ⟨cut, hFound, hLe, hBoundary, hLast⟩ := boundaryUpTo?_spec piece buffer.room
    obtain ⟨part, rest, hText, rfl⟩ := isBoundary_iff.1 hBoundary
    have hSlice : slice? piece part.utf8ByteSize = some part :=
      slice?_eq_some_iff.2 ⟨⟨rest, hText⟩, rfl⟩
    rw [if_neg hFits, if_neg hFits, fit_of_last hText hLe hLast, hFound,
      Option.bind_eq_bind, Option.bind_some, hSlice]
    rfl

/-- Byte by byte or character by character, the same is written, and no cut ever falls
inside a character. -/
theorem writeAllBytes?_eq (buffer : Bounded) (pieces : List String) :
    buffer.writeAllBytes? pieces = some (buffer.writeAll pieces) := by
  induction pieces generalizing buffer with
  | nil => rfl
  | cons piece rest ih =>
      unfold writeAllBytes? writeAll
      rw [writeBytes?_eq, Option.bind_eq_bind, Option.bind_some]
      cases buffer.write piece with
      | mk next fits =>
          cases fits with
          | true => exact ih next
          | false => rfl

private theorem limit_writeAll (buffer : Bounded) (pieces : List String) :
    (buffer.writeAll pieces).limit = buffer.limit := by
  induction pieces generalizing buffer with
  | nil => rfl
  | cons piece rest ih =>
      unfold writeAll write
      by_cases hFits : piece.utf8ByteSize ≤ buffer.room
      · rw [if_pos hFits]
        exact ih _
      · rw [if_neg hFits]

/-! ## The whole text -/

/-- What a buffer takes of a text: the bytes up to the last boundary that keeps it
within its limit. -/
structure Takes (buffer : Bounded) (text part : String) : Prop where
  begins : slice? text part.utf8ByteSize = some part
  /-- A buffer that is full already takes nothing. -/
  fits : part = "" ∨ buffer.text.utf8ByteSize + part.utf8ByteSize ≤ buffer.limit
  last : ∀ offset, isBoundary text offset = true →
    buffer.text.utf8ByteSize + offset ≤ buffer.limit → offset ≤ part.utf8ByteSize

private theorem takes_fit (buffer : Bounded) (text : String) :
    buffer.Takes text (fit buffer.room text) := by
  have hLongest := longest_fit buffer.room text
  have hRoom : buffer.room = buffer.limit - buffer.text.utf8ByteSize := rfl
  have hFits := hLongest.fits
  refine ⟨slice?_eq_some_iff.2 ⟨hLongest.begins, rfl⟩, ?_,
    fun offset hBoundary hOffset => ?_⟩
  · rcases Nat.eq_zero_or_pos (fit buffer.room text).utf8ByteSize with hZero | hPos
    · exact .inl (String.utf8ByteSize_eq_zero_iff.1 hZero)
    · exact .inr (by omega)
  · obtain ⟨part, rest, hText, rfl⟩ := isBoundary_iff.1 hBoundary
    obtain ⟨more, hMore⟩ := hLongest.longest part rest hText (by omega)
    rw [hMore, String.utf8ByteSize_append]
    exact Nat.le_add_right _ _

/-- Pieces that are written into a buffer, whatever it holds, are cut once, and where
they are cut does not depend on what the pieces are: what follows the old text is the
beginning of the whole new text up to the last boundary within the limit. Writing the
pieces byte by byte comes to the same: no search for a boundary passes the beginning of
its piece, and no cut goes through a character.

What is written in the end depends on the pieces only through their concatenation. So a
caller may cut a text as it likes, and bytes of one character in different pieces cannot
come about, since pieces are texts. -/
theorem writeAll_exact (buffer : Bounded) (pieces : List String) :
    buffer.writeAllBytes? pieces = some (buffer.writeAll pieces) ∧
      (∃ part, buffer.writeAll pieces = { buffer with text := buffer.text ++ part } ∧
        buffer.Takes (String.join pieces) part) ∧
      ∀ other, String.join other = String.join pieces →
        buffer.writeAll other = buffer.writeAll pieces := by
  have hWhole (pieces : List String) :
      buffer.writeAll pieces =
        { buffer with text := buffer.text ++ fit buffer.room (String.join pieces)
        } := by
    have hText := text_writeAll_of_room buffer pieces
    have hLimit := limit_writeAll buffer pieces
    generalize buffer.writeAll pieces = after at hText hLimit ⊢
    obtain ⟨limit, text⟩ := after
    subst hText hLimit
    rfl
  refine ⟨writeAllBytes?_eq buffer pieces, ⟨_, hWhole pieces, takes_fit buffer _⟩,
    fun other hSame => ?_⟩
  rw [hWhole other, hWhole pieces, hSame]

/-- Two ways to cut one text into pieces: one byte of room is left for the three bytes
of the euro sign, and the short piece after it is not written. -/
theorem writeAll_exact_of_cuts :
    String.join ["a", "é€b"] = String.join ["aé", "€", "b"] ∧
      ({ limit := 5, text := "x" } : Bounded).writeAll ["a", "é€b"] =
        { limit := 5, text := "xaé" } := by
  have hSame : String.join ["a", "é€b"] = String.join ["aé", "€", "b"] := by
    decide +kernel
  refine ⟨hSame, ?_⟩
  rw [(writeAll_exact { limit := 5, text := "x" } ["aé", "€", "b"]).2.2 ["a", "é€b"]
    hSame]
  decide +kernel

end Unwinding.Bounded
