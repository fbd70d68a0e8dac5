/-
The simple part of TOML: tables of keys with texts, integers and truth values.

A document is read line by line. A line holds the header of a table or a key with its value, or neither; a comment may
stand at its end. No table is opened twice, and no key of a table is set twice. Keys with dots, lists, inline tables,
texts over several lines, fractions and dates are not read.
-/
import ThreeMachines.Data.Word
import ThreeMachines.Text.Blank

namespace ThreeMachines.Toml

inductive Value where
  | text (text : String)
  | int (value : Int)
  | bool (value : Bool)
deriving DecidableEq, Repr

/-- a table; the one before the first header has no name -/
structure Table where
  name : Option String
  entries : List (String × Value)
deriving DecidableEq, Repr

def isBlank (c : Char) : Bool := c = ' ' || c = '\t'

def skipBlanks (cs : List Char) : List Char := cs.dropWhile isBlank

/-- a character that comments and texts may hold as it is -/
def isPlain (c : Char) : Bool := c = '\t' || (0x20 ≤ c.toNat && c.toNat ≠ 0x7f)

/-- whether a line may end here: blanks and a comment at most are left -/
def isEnd (cs : List Char) : Bool :=
  match skipBlanks cs with
  | [] => true
  | '#' :: comment => comment.all isPlain
  | _ => false

def digit? (c : Char) : Option Nat :=
  if '0' ≤ c ∧ c ≤ '9' then some (c.toNat - '0'.toNat)
  else if 'a' ≤ c ∧ c ≤ 'f' then some (c.toNat - 'a'.toNat + 10)
  else if 'A' ≤ c ∧ c ≤ 'F' then some (c.toNat - 'A'.toNat + 10)
  else none

/-- the number that digits to a base write, on top of the digits read before -/
def number? (base : Nat) : Nat → List Char → Option Nat
  | value, [] => some value
  | value, c :: cs =>
    match digit? c with
    | some d => if d < base then number? base (base * value + d) cs else none
    | none => none

/-- the character with a number in hexadecimal digits -/
def scalar? (digits : List Char) : Option Char :=
  match number? 16 0 digits with
  | some n => if n.isValidChar then some (Char.ofNat n) else none
  | none => none

/-- the rest of a text between double quotes, and what follows it -/
def quoted? : List Char → Option (List Char × List Char)
  | '"' :: rest => some ([], rest)
  | '\\' :: 'b' :: rest => prepend '\x08' (quoted? rest)
  | '\\' :: 't' :: rest => prepend '\t' (quoted? rest)
  | '\\' :: 'n' :: rest => prepend '\n' (quoted? rest)
  | '\\' :: 'f' :: rest => prepend '\x0c' (quoted? rest)
  | '\\' :: 'r' :: rest => prepend '\r' (quoted? rest)
  | '\\' :: '"' :: rest => prepend '"' (quoted? rest)
  | '\\' :: '\\' :: rest => prepend '\\' (quoted? rest)
  | '\\' :: 'u' :: a :: b :: c :: d :: rest =>
    match scalar? [a, b, c, d] with
    | some char => prepend char (quoted? rest)
    | none => none
  | '\\' :: 'U' :: a :: b :: c :: d :: e :: f :: g :: h :: rest =>
    match scalar? [a, b, c, d, e, f, g, h] with
    | some char => prepend char (quoted? rest)
    | none => none
  | c :: rest => if c ≠ '\\' && isPlain c then prepend c (quoted? rest) else none
  | [] => none
where
  prepend (c : Char) (rest : Option (List Char × List Char)) : Option (List Char × List Char) :=
    rest.map fun r => (c :: r.1, r.2)

/-- the rest of a text between single quotes, and what follows it -/
def literal? : List Char → Option (List Char × List Char)
  | '\'' :: rest => some ([], rest)
  | c :: rest => if isPlain c then (literal? rest).map fun r => (c :: r.1, r.2) else none
  | [] => none

def isBare (c : Char) : Bool := c.isAlphanum || c = '_' || c = '-'

/-- a key, and what follows it -/
def key? : List Char → Option (String × List Char)
  | '"' :: rest => (quoted? rest).map fun r => (String.ofList r.1, r.2)
  | '\'' :: rest => (literal? rest).map fun r => (String.ofList r.1, r.2)
  | cs =>
    let bare := cs.takeWhile isBare
    if bare.isEmpty then none else some (String.ofList bare, cs.drop bare.length)

/-- digits without the underscores between them -/
def withoutUnderscores? : List Char → Option (List Char)
  | [] => none
  | [c] => if c = '_' then none else some [c]
  | c :: '_' :: rest => if c = '_' then none else (withoutUnderscores? rest).map fun cs => c :: cs
  | c :: rest => if c = '_' then none else (withoutUnderscores? rest).map fun cs => c :: cs

def digits? (base : Nat) (cs : List Char) : Option Nat := (withoutUnderscores? cs).bind (number? base 0)

/-- a decimal number, which does not start with 0 unless it is 0 -/
def decimal? : List Char → Option Nat
  | ['0'] => some 0
  | '0' :: _ => none
  | cs => digits? 10 cs

/-- an integer of 64 bits -/
def int? (cs : List Char) : Option Int :=
  let value : Option Int := match cs with
    | '+' :: rest => (decimal? rest).map fun n => (n : Int)
    | '-' :: rest => (decimal? rest).map fun n => -(n : Int)
    | '0' :: 'x' :: rest => (digits? 16 rest).map fun n => (n : Int)
    | '0' :: 'o' :: rest => (digits? 8 rest).map fun n => (n : Int)
    | '0' :: 'b' :: rest => (digits? 2 rest).map fun n => (n : Int)
    | cs => (decimal? cs).map fun n => (n : Int)
  value.filter isWord

/-- a value, and what follows it -/
def value? : List Char → Option (Value × List Char)
  | '"' :: rest => (quoted? rest).map fun r => (.text (String.ofList r.1), r.2)
  | '\'' :: rest => (literal? rest).map fun r => (.text (String.ofList r.1), r.2)
  | cs =>
    let word := cs.takeWhile fun c => !isBlank c && c ≠ '#'
    let value : Option Value := match String.ofList word with
      | "true" => some (.bool true)
      | "false" => some (.bool false)
      | _ => (int? word).map .int
    value.map fun v => (v, cs.drop word.length)

inductive Line where
  | nothing
  | header (name : String)
  | entry (key : String) (value : Value)
deriving DecidableEq, Repr

def header? (cs : List Char) : Option Line := do
  let (name, rest) ← key? (skipBlanks cs)
  match skipBlanks rest with
  | ']' :: rest => if isEnd rest then some (.header name) else none
  | _ => none

def entry? (cs : List Char) : Option Line := do
  let (key, rest) ← key? cs
  match skipBlanks rest with
  | '=' :: rest =>
    let (value, rest) ← value? (skipBlanks rest)
    if isEnd rest then some (.entry key value) else none
  | _ => none

def line? (cs : List Char) : Option Line :=
  if isEnd cs then some .nothing
  else match skipBlanks cs with
    | '[' :: rest => header? rest
    | cs => entry? cs

/-- the characters of a text, without the byte order mark that may stand before them -/
def characters (text : String) : List Char :=
  match text.toList with
  | '\ufeff' :: cs => cs
  | cs => cs

/-- the lines of a text; one that is followed by another may end in a carriage return -/
def lines (text : String) : List (List Char) :=
  let all := Text.splitAt '\n' (characters text)
  all.dropLast.map (fun line => if line.getLast? = some '\r' then line.dropLast else line) ++ all.getLast?.toList

/-- put a line into a document, whose newest table and newest keys come first -/
def add? (tables : List Table) : Line → Option (List Table)
  | .nothing => some tables
  | .header name => if tables.any (fun t => t.name = some name) then none else some (⟨some name, []⟩ :: tables)
  | .entry key value =>
    match tables with
    | [] => none
    | t :: rest =>
      if t.entries.any (fun entry => entry.1 = key) then none else some (⟨t.name, (key, value) :: t.entries⟩ :: rest)

/-- the tables of a text -/
def parse? (text : String) : Option (List Table) := do
  let ls ← (lines text).mapM line?
  ls.foldlM add? [⟨none, []⟩]

end ThreeMachines.Toml
