import TensorIR.Quoted.Joining
import TensorIR.Quoted.Unseen

/-! # Quoted text

A text in quotation marks, written so that every character of it can be told apart. Quotation
marks, backslashes and the common controls are escaped by a letter, and every other character
that does not show or that would join the one before it by its code point in hexadecimal digits.
-/

namespace TensorIR

namespace Quoted

/-- A code point in hexadecimal digits, as few as it takes. -/
def codePoint (c : Char) : String :=
  "\\u\x7b" ++ String.ofList (Nat.toDigits 16 c.toNat) ++ "\x7d"

/-- A character as it stands between quotation marks. -/
def char (c : Char) : String :=
  match c with
  | '"' => "\\\""
  | '\\' => "\\\\"
  | '\n' => "\\n"
  | '\r' => "\\r"
  | '\t' => "\\t"
  | '\x00' => "\\0"
  | _ => if isUnseen c || isJoining c then codePoint c else c.toString

end Quoted

/-- A text in quotation marks. -/
def quoted (s : String) : String := "\"" ++ String.join (s.toList.map Quoted.char) ++ "\""

end TensorIR
