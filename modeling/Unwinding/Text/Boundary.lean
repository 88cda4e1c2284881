import Unwinding.Text.Bounded

/-!
# Where a text may be cut

A text is a sequence of bytes. It may be cut where a character begins and where the text
ends, and nowhere else: the bytes up to a place inside a character are no text.
`Bounded.write` speaks of characters that fit; here the same is done with bytes. A piece
that is too long is cut at the last boundary that leaves it short enough, and that is
looked for one byte at a time, backwards. Two things could go wrong on the way, and both
are answers of their own: the search could pass the beginning of the piece, and the cut
could go through a character.
-/

namespace Unwinding.Bounded

/-- Whether a character begins at a byte of a text, or the text ends there. -/
def isBoundary (text : String) (offset : Nat) : Bool :=
  String.Pos.Raw.isValid text ⟨offset⟩

/-- The last boundary up to a byte of a text; none if the search passes the
beginning. -/
def boundaryUpTo? (text : String) : Nat → Option Nat
  | 0 => if isBoundary text 0 then some 0 else none
  | offset + 1 =>
      if isBoundary text (offset + 1) then some (offset + 1) else
        boundaryUpTo? text offset

/-- The text of so many bytes that a text begins with; none if they are no text, or not
so many. -/
def slice? (text : String) (offset : Nat) : Option String :=
  if offset ≤ text.utf8ByteSize then
    String.fromUTF8? (text.toByteArray.extract 0 offset) else none

/-- Writes a piece, or its bytes up to the last boundary that fits; the flag tells
whether all of it did. -/
def writeBytes? (buffer : Bounded) (piece : String) : Option (Bounded × Bool) :=
  if piece.utf8ByteSize ≤ buffer.room then
    some ({ buffer with text := buffer.text ++ piece }, true)
  else do
    let cut ← boundaryUpTo? piece buffer.room
    let part ← slice? piece cut
    return ({ buffer with text := buffer.text ++ part }, false)

/-- Writes pieces in order, up to and including the first that does not fit. -/
def writeAllBytes? (buffer : Bounded) : List String → Option Bounded
  | [] => some buffer
  | piece :: rest => do
      match ← buffer.writeBytes? piece with
      | (next, true) => next.writeAllBytes? rest
      | (next, false) => return next

end Unwinding.Bounded
