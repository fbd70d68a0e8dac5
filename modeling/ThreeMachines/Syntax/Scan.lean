/-
From a text to its tokens.

`Token.scan` reads a text from left to right. Blanks and comments (from `#` to the end of the line) separate tokens and
are skipped. At any other character the longest token that starts there is taken: a run of digits is a number, a run of
letters, digits and underscores that starts with no digit is a keyword or else a name, and a mark of two characters wins
over a mark of one. The first character at which no token starts, or the first number beyond 64 bits, ends the reading.
The list that `Token.scan` gives always ends with `Token.eof`, whose span is empty.
-/
import ThreeMachines.Data.Word
import ThreeMachines.Syntax.Error

namespace ThreeMachines

def isBlank (c : Char) : Bool := c = ' ' || c = '\t' || c = '\r' || c = '\n'

/-- names start with an ASCII letter or an underscore -/
def isNameStart (c : Char) : Bool := c.isAlpha || c = '_'

/-- names go on with ASCII letters, digits and underscores -/
def isNamePart (c : Char) : Bool := c.isAlphanum || c = '_'

/-- drop leading blanks and comments; `comment` says whether the text starts inside a comment -/
def skipTrivia (comment : Bool) (p : Position) : List Char → Position × List Char
  | [] => (p, [])
  | c :: cs =>
    if comment then skipTrivia (c != '\n') (p.next c) cs
    else if isBlank c then skipTrivia false (p.next c) cs
    else if c = '#' then skipTrivia true (p.next c) cs
    else (p, c :: cs)

theorem skipTrivia_length (comment : Bool) (p : Position) (cs : List Char) :
    (skipTrivia comment p cs).2.length ≤ cs.length := by
  induction cs generalizing comment p with
  | nil => simp [skipTrivia]
  | cons c cs ih =>
    unfold skipTrivia
    split
    · exact Nat.le_succ_of_le (ih _ _)
    · split
      · exact Nat.le_succ_of_le (ih _ _)
      · split
        · exact Nat.le_succ_of_le (ih _ _)
        · exact Nat.le_refl _

theorem skipTrivia_rest {comment : Bool} {p q : Position} {cs rest : List Char} {c : Char}
    (h : skipTrivia comment p cs = (q, c :: rest)) : rest.length < cs.length := by
  have := skipTrivia_length comment p cs
  rw [h] at this
  exact this

/-- the value of a run of decimal digits -/
def decimalValue (digits : List Char) : Nat := digits.foldl (fun n c => 10 * n + (c.toNat - '0'.toNat)) 0

/-- the number that a run of digits spells, if 64 bits hold it -/
def readNumber (digits : List Char) : Except SyntaxError.Cause Token :=
  if decimalValue digits ≤ greatestWord then .ok (.number (Int64.ofNat (decimalValue digits)))
  else .error (.invalidNumber (String.ofList digits))

/-- a keyword if the word is one, else a name -/
def readWord (word : String) : Token :=
  match Keyword.ofSpelling? word with
  | some k => .keyword k
  | none => .ident word

/-- a piece of text that starts with a given character: its further characters, and what it reads as -/
structure Lexeme where
  more : List Char
  reading : Except SyntaxError.Cause Token

namespace Lexeme

/-- a mark of one character, or nothing that a token starts with -/
def single (c : Char) : Lexeme :=
  match Mark.ofChar? c with
  | some m => ⟨[], .ok (.mark m)⟩
  | none => ⟨[], .error (.unexpectedCharacter c)⟩

/-- a mark: the longer one if there is a choice -/
def mark (c : Char) : List Char → Lexeme
  | [] => single c
  | d :: _ =>
    match Mark.ofPair? c d with
    | some m => ⟨[d], .ok (.mark m)⟩
    | none => single c

/-- the longest piece at `c`, which `cs` follows -/
def longest (c : Char) (cs : List Char) : Lexeme :=
  if c.isDigit then
    let more := cs.takeWhile Char.isDigit
    ⟨more, readNumber (c :: more)⟩
  else if isNameStart c then
    let more := cs.takeWhile isNamePart
    ⟨more, .ok (readWord (String.ofList (c :: more)))⟩
  else mark c cs

end Lexeme

namespace Token

/-- the tokens of the text `cs` that starts at place `p` -/
def scanFrom (p : Position) (cs : List Char) : Except SyntaxError (List Located) :=
  match _h : skipTrivia false p cs with
  | (q, []) => .ok [⟨.eof, q.spanOf []⟩]
  | (q, c :: rest) =>
    let text := c :: (Lexeme.longest c rest).more
    match (Lexeme.longest c rest).reading with
    | .error cause => .error ⟨cause, q.spanOf text⟩
    | .ok token => do
      let later ← scanFrom (q.after text) (rest.drop (Lexeme.longest c rest).more.length)
      return ⟨token, q.spanOf text⟩ :: later
termination_by cs.length
decreasing_by
  have := skipTrivia_rest _h
  simp only [List.length_drop]
  omega

/-- the tokens of a whole text -/
def scan (text : String) : Except SyntaxError (List Located) := scanFrom .origin text.toList

end Token

end ThreeMachines
