/-
Lines of code in columns.

A label stands at the margin with a colon, an instruction one tab stop further right. The mnemonic and every operand but
the last, with its comma, take a tab stop each, or what they need if that is more; a mnemonic is followed by a blank at
least. A note to an instruction starts in a column of its own. Widths are counted in characters; whether a note's column
is already passed is decided in bytes.
-/
import ThreeMachines.Text.Blank

namespace ThreeMachines

inductive Line where
  | label (name : String)
  | instr (mnemonic : String) (operands : List String) (note : Option String)
  /-- a comment on a line of its own -/
  | comment (text : String)
  /-- a text at the margin, as it is -/
  | directive (text : String)
  | blank
deriving DecidableEq, Repr

namespace Line

/-- width of a tab stop -/
def tabWidth : Nat := 8

/-- the column of notes -/
def noteColumn : Nat := 40

/-- a text, filled up with blanks to a width -/
def pad (text : String) (width : Nat) : String := text.pushn ' ' (width - text.length)

/-- the parts of a text between commas, without blanks around them; empty parts do not count -/
def splitOperands (operands : String) : List String :=
  ((Text.splitAt ',' operands.toList).map fun part => Text.trim (String.ofList part)).filter fun part => part ≠ ""

/-- the line of an instruction whose operands are given as one text -/
def operation (mnemonic operands : String) (note : Option String) : Line :=
  .instr mnemonic (splitOperands operands) note

/-- operands in their columns -/
def columns : List String → String
  | [] => ""
  | [operand] => operand
  | operand :: rest => pad (operand ++ ",") tabWidth ++ columns rest

/-- an instruction without its note -/
def body (mnemonic : String) (operands : List String) : String :=
  if operands.isEmpty then pad "" tabWidth ++ mnemonic
  else pad "" tabWidth ++ pad mnemonic (tabWidth - 1) ++ " " ++ columns operands

/-- a text up to the column of notes -/
def toNoteColumn (text : String) : String :=
  if text.utf8ByteSize < noteColumn then pad text noteColumn else text ++ " "

def text : Line → String
  | label name => name ++ ":"
  | instr mnemonic operands none => body mnemonic operands
  | instr mnemonic operands (some note) => toNoteColumn (body mnemonic operands) ++ "; " ++ note
  | comment text => pad "" tabWidth ++ ";;; " ++ text
  | directive text => text
  | blank => ""

/-- all lines, each with a line feed at its end -/
def render (lines : List Line) : String := String.join (lines.map fun line => line.text ++ "\n")

end Line
end ThreeMachines
