/-!
# Text with a byte limit

Messages of exceptions are written piece by piece into a buffer that holds a limited
number of bytes. A piece that fits is kept whole. The first one that does not is cut
after the last character that fits, and ends the writing: no later, shorter piece slips
into the room that is left.

## Main results

* `fitChars_append` — cutting piece by piece is cutting the whole text.
* `bytes_fitChars_le` — the cut text keeps to the limit.
* `fitChars_eq_self` — a text that fits is not cut.
-/

namespace Unwinding

/-- A buffer that holds at most `limit` bytes.

A message is written into a buffer that was laid out in advance, so that a raise asks
for no memory. What does not fit is cut where a character ends. -/
structure Bounded where
  limit : Nat
  text : String := ""
  deriving DecidableEq, Repr, Inhabited

namespace Bounded

/-- The number of bytes of a list of characters. -/
def bytes : List Char → Nat
  | [] => 0
  | c :: rest => c.utf8Size + bytes rest

/-- The longest beginning of a list of characters that fits into so many bytes. -/
def fitChars : Nat → List Char → List Char
  | _, [] => []
  | room, c :: rest =>
      if c.utf8Size ≤ room then c :: fitChars (room - c.utf8Size) rest else []

/-- The longest beginning of a text that fits into so many bytes. -/
def fit (room : Nat) (text : String) : String :=
  String.ofList (fitChars room text.toList)

/-- The bytes still free; none if the buffer holds more than its limit. -/
def room (buffer : Bounded) : Nat :=
  buffer.limit - buffer.text.utf8ByteSize

/-- Writes a piece, or as much of it as fits; the flag tells whether all of it did. -/
def write (buffer : Bounded) (piece : String) : Bounded × Bool :=
  if piece.utf8ByteSize ≤ buffer.room then
    ({ buffer with text := buffer.text ++ piece }, true)
  else
    ({ buffer with text := buffer.text ++ fit buffer.room piece }, false)

/-- Writes pieces in order, up to and including the first that does not fit. -/
def writeAll (buffer : Bounded) : List String → Bounded
  | [] => buffer
  | piece :: rest =>
      match buffer.write piece with
      | (next, true) => next.writeAll rest
      | (next, false) => next

/-! ## Laws of the cut -/

@[simp] theorem bytes_nil : bytes [] = 0 := rfl

@[simp] theorem bytes_cons (c : Char) (rest : List Char) :
    bytes (c :: rest) = c.utf8Size + bytes rest := rfl

/-- What fits a room is no longer than the room. -/
theorem bytes_fitChars_le (room : Nat) (chars : List Char) :
    bytes (fitChars room chars) ≤ room := by
  induction chars generalizing room with
  | nil => simp [fitChars]
  | cons c rest ih =>
      have hRest := ih (room - c.utf8Size)
      simp only [fitChars]
      split
      · simp only [bytes_cons]
        omega
      · simp

/-- A text that is short enough fits whole. -/
theorem fitChars_eq_self {room : Nat} {chars : List Char} (h : bytes chars ≤ room) :
    fitChars room chars = chars := by
  induction chars generalizing room with
  | nil => rfl
  | cons c rest ih =>
      simp only [bytes_cons] at h
      have hc : c.utf8Size ≤ room := by omega
      have hRest : bytes rest ≤ room - c.utf8Size := by omega
      simp [fitChars, hc, ih hRest]

/-- Cutting a text in two pieces is cutting it whole: what follows a piece that fits is
cut to the room left. -/
theorem fitChars_append {room : Nat} {first : List Char} (rest : List Char)
    (h : bytes first ≤ room) :
    fitChars room (first ++ rest) = first ++ fitChars (room - bytes first) rest := by
  induction first generalizing room with
  | nil => simp
  | cons c tail ih =>
      simp only [bytes_cons] at h
      have hc : c.utf8Size ≤ room := by omega
      have hSub : room - (c.utf8Size + bytes tail) =
          room - c.utf8Size - bytes tail := by omega
      have hTail : bytes tail ≤ room - c.utf8Size := by omega
      simp [fitChars, hc, hSub, ih hTail]

end Bounded

end Unwinding
