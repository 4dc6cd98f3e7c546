/-!
# Quoted texts

* `quote` — a text between quotation marks, with an escape for each character
  that could not be seen or would end the quotation.
-/

namespace Abacus.Text

/-- How a character is written between quotation marks. -/
def escape (c : Char) : String :=
  match c with
  | '\t' => "\\t"
  | '\n' => "\\n"
  | '\r' => "\\r"
  | '"' => "\\\""
  | '\\' => "\\\\"
  | c =>
    if c.toNat < 0x20 || c.toNat = 0x7F then
      "\\u\x7b" ++ String.ofList (Nat.toDigits 16 c.toNat) ++ "\x7d"
    else
      c.toString

/-- The text between quotation marks. -/
def quote (text : String) : String :=
  "\"" ++ String.join (text.toList.map escape) ++ "\""

end Abacus.Text
