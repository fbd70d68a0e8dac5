/-
JSON values and their text.

A number is a decimal: `mantissa` over a power of ten, so that the integers are the numbers with exponent 0. The fields
of an object keep their order. `Json.pretty` indents by two blanks, one field or item a line; an empty list or object is
closed at once.
-/
import ThreeMachines.Data.Word

namespace ThreeMachines

inductive Json where
  | null
  | bool (value : Bool)
  /-- `mantissa / 10 ^ exponent` -/
  | number (mantissa : Int) (exponent : Nat)
  | str (text : String)
  | arr (items : List Json)
  | obj (fields : List (String × Json))
deriving Repr, Inhabited

namespace Json

/-- an integer -/
def int (value : Int) : Json := .number value 0

def text? : Json → Option String
  | .str text => some text
  | _ => none

def bool? : Json → Option Bool
  | .bool value => some value
  | _ => none

/-- a name that a value gives: a text, or an object whose only field has this name and holds nothing -/
def tag? : Json → Option String
  | .str name => some name
  | .obj [(name, .null)] => some name
  | .obj [(name, .obj [])] => some name
  | _ => none

def texts? : Json → Option (List String)
  | .arr items => items.mapM text?
  | _ => none

/-- an integer that a signed 64-bit word holds -/
def word? : Json → Option Int64
  | .number value 0 => if isWord value then some (Int64.ofInt value) else none
  | _ => none

/-- a value of a field that comes with fields, with the evidence that it is smaller than all of them -/
def field? (name : String) (fields : List (String × Json)) : Option { v : Json // sizeOf v < sizeOf fields } :=
  match fields with
  | [] => none
  | (key, value) :: rest =>
    if key = name then some ⟨value, by simp; omega⟩
    else (field? name rest).map fun v => ⟨v.1, by have := v.2; simp; omega⟩

/-- an item of a list, with the evidence that it is smaller than the list -/
def item? (index : Nat) (items : List Json) : Option { v : Json // sizeOf v < sizeOf items } :=
  match items, index with
  | [], _ => none
  | value :: _, 0 => some ⟨value, by simp; omega⟩
  | _ :: rest, index + 1 => (item? index rest).map fun v => ⟨v.1, by have := v.2; simp; omega⟩

/-- one hexadecimal digit, in lower case -/
def hexDigit (n : Nat) : Char := Nat.digitChar (n % 16)

/-- how a character stands inside a quoted text -/
def escape (c : Char) : String :=
  if c = '"' then "\\\""
  else if c = '\\' then "\\\\"
  else if c = '\n' then "\\n"
  else if c = '\r' then "\\r"
  else if c = '\t' then "\\t"
  else if c = '\x08' then "\\b"
  else if c = '\x0c' then "\\f"
  else if c.toNat < 32 then "\\u00" ++ String.ofList [hexDigit (c.toNat / 16), hexDigit c.toNat]
  else c.toString

def quote (text : String) : String := "\"" ++ String.join (text.toList.map escape) ++ "\""

/-- the text of a number: a decimal point before its last `exponent` digits -/
def decimal (mantissa : Int) (exponent : Nat) : String :=
  if exponent = 0 then toString mantissa
  else
    let digits := toString (mantissa.natAbs / Nat.pow 10 exponent)
    let places := toString (mantissa.natAbs % Nat.pow 10 exponent)
    (if mantissa < 0 then "-" else "") ++ digits ++ "." ++ "".pushn '0' (exponent - places.length) ++ places

mutual

/-- the text of a value whose first line stands at the given indentation -/
def render (indent : String) : Json → String
  | .null => "null"
  | .bool true => "true"
  | .bool false => "false"
  | .number mantissa exponent => decimal mantissa exponent
  | .str text => quote text
  | .arr [] => "[]"
  | .arr items => "[\n" ++ String.intercalate ",\n" (renderItems (indent ++ "  ") items) ++ "\n" ++ indent ++ "]"
  | .obj [] => "\x7b\x7d"
  | .obj fields =>
    "\x7b\n" ++ String.intercalate ",\n" (renderFields (indent ++ "  ") fields) ++ "\n" ++ indent ++ "\x7d"

def renderItems (indent : String) : List Json → List String
  | [] => []
  | item :: rest => (indent ++ render indent item) :: renderItems indent rest

def renderFields (indent : String) : List (String × Json) → List String
  | [] => []
  | (name, value) :: rest => (indent ++ quote name ++ ": " ++ render indent value) :: renderFields indent rest

end

/-- the text of a value, over several lines -/
def pretty (value : Json) : String := render "" value

end Json
end ThreeMachines
