/-
Quoted texts of an outline.

A text stands between double quotes. A double quote and a backslash in it are preceded by a backslash, line feed,
carriage return, tab and NUL have their letters, and any other character that is unseen or combines with the one before
it is written by its number in braces.
-/
import ThreeMachines.Text.Hex
import ThreeMachines.Text.Unseen

namespace ThreeMachines.Text

/-- how a character stands inside a quoted text -/
def escaped (c : Char) : String :=
  if c = '"' then "\\\""
  else if c = '\\' then "\\\\"
  else if c = '\n' then "\\n"
  else if c = '\r' then "\\r"
  else if c = '\t' then "\\t"
  else if c = '\x00' then "\\0"
  else if isUnseen c || isCombining c then "\\u\x7b" ++ hex c.toNat ++ "\x7d"
  else c.toString

def quoted (text : String) : String := "\"" ++ String.join (text.toList.map escaped) ++ "\""

end ThreeMachines.Text
