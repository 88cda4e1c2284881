import Unwinding.Text.Printable

/-!
# Quoted text

A text in double quotes, with everything escaped that a reader could not see or not tell
apart.
-/

namespace Unwinding.Quoted

/-- The number of a character in braces, in lower-case hexadecimal digits. -/
def numbered (c : Char) : String :=
  "\\u\x7b" ++ String.ofList (Nat.toDigits 16 c.toNat) ++ "\x7d"

/-- One character inside the quotes. -/
def escape (c : Char) : String :=
  match c with
  | '\x00' => "\\0"
  | '\t' => "\\t"
  | '\r' => "\\r"
  | '\n' => "\\n"
  | '"' => "\\\""
  | '\\' => "\\\\"
  | c => if Printable.isPlain c then c.toString else numbered c

/-- A text in quotes. -/
def quote (text : String) : String :=
  "\"" ++ String.join (text.toList.map escape) ++ "\""

end Unwinding.Quoted
