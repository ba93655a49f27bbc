import Cil.Text.Hidden

/-!
Quoted texts: quotes and backslashes are escaped, and so are all hidden characters.
-/

namespace Cil
namespace Quoted

/-- A character by its code point. -/
def codePoint (c : Char) : String :=
  "\\u\x7b" ++ String.ofList (Nat.toDigits 16 c.toNat) ++ "\x7d"

def char (c : Char) : String :=
  if c = '\x00' then "\\0"
  else if c = '\t' then "\\t"
  else if c = '\r' then "\\r"
  else if c = '\n' then "\\n"
  else if c = '"' then "\\\""
  else if c = '\\' then "\\\\"
  else if isHidden c then codePoint c
  else c.toString

def text (s : String) : String := "\"" ++ String.join (s.toList.map char) ++ "\""

end Quoted
end Cil
