/-!
# Quoted text

A text in double quotes, with the characters that would be mistaken or could not
be seen written as escapes: the quote and the backslash after a backslash, tab,
line feed, carriage return and the null character by their letters, and every
other control character by its number in hexadecimal. All other characters
stand for themselves.
-/

namespace Dataflow.Text

/-- How a character is written between double quotes. -/
def escape (c : Char) : String :=
  if c = '"' then "\\\""
  else if c = '\\' then "\\\\"
  else if c = '\t' then "\\t"
  else if c = '\r' then "\\r"
  else if c = '\n' then "\\n"
  else if c.toNat = 0 then "\\0"
  else if c.toNat < 0x20 ∨ c.toNat = 0x7f then
    "\\u\x7b" ++ String.ofList (Nat.toDigits 16 c.toNat) ++ "\x7d"
  else c.toString

/-- A text in double quotes, escaped. -/
def quote (s : String) : String := "\"" ++ String.join (s.toList.map escape) ++ "\""

end Dataflow.Text
