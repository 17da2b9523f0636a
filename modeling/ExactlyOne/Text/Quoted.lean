import ExactlyOne.Text.CharTable

/-!
Texts between double quotes, with every character that cannot be seen written as an escape.
-/

namespace ExactlyOne

namespace Quoted

def codePoint (c : Char) : String :=
  "\\u\x7b" ++ String.ofList (Nat.toDigits 16 c.toNat) ++ "\x7d"

def isVisible (c : Char) : Bool :=
  if c.toNat < 0x7f then 0x20 ≤ c.toNat
  else !CharTable.holds CharTable.combining c && !CharTable.holds CharTable.unprinted c

def escape (c : Char) : String :=
  match c with
  | '"' => "\\\""
  | '\\' => "\\\\"
  | '\n' => "\\n"
  | '\r' => "\\r"
  | '\t' => "\\t"
  | '\x00' => "\\0"
  | c => if isVisible c then String.singleton c else codePoint c

end Quoted

def quotedText (s : String) : String := "\"" ++ String.join (s.toList.map Quoted.escape) ++ "\""

end ExactlyOne
