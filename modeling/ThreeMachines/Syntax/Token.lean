/-
Tokens of the expression language and the places where they stand in a text.

A token is a literal, a name, a word of the language (`Keyword`), a mark (`Mark`) or the end of the text.
`Token.spelling` is how a token is written, `Token.describe` is how an error report names it. A `Span` is a byte range
together with the line and column of its first character, both counted from 1; a column counts characters, and only a
line feed ends a line.
-/

namespace ThreeMachines

/-- a byte range and the line and column at which it starts -/
structure Span where
  start : Nat
  stop : Nat
  line : Nat
  column : Nat
deriving DecidableEq, Repr, Inhabited

/-- a place in a text: bytes before it, its line and its column -/
structure Position where
  offset : Nat
  line : Nat
  column : Nat
deriving DecidableEq, Repr

namespace Position

/-- the first place of a text -/
def origin : Position := ⟨0, 1, 1⟩

/-- the place after one character -/
def next (p : Position) (c : Char) : Position :=
  if c = '\n' then ⟨p.offset + c.utf8Size, p.line + 1, 1⟩ else ⟨p.offset + c.utf8Size, p.line, p.column + 1⟩

/-- the place after a run of characters -/
def after (p : Position) (cs : List Char) : Position := cs.foldl next p

/-- the span of a run of characters that starts here -/
def spanOf (p : Position) (cs : List Char) : Span := ⟨p.offset, (p.after cs).offset, p.line, p.column⟩

end Position

/-- words with a fixed meaning -/
inductive Keyword where
  | localWord | inWord | ifWord | thenWord | elseWord | whileWord | doWord | loopWord | funWord | procWord
  | andWord | orWord | notWord | trueWord | falseWord
deriving DecidableEq, Repr

namespace Keyword

def all : List Keyword :=
  [localWord, inWord, ifWord, thenWord, elseWord, whileWord, doWord, loopWord, funWord, procWord, andWord, orWord,
    notWord, trueWord, falseWord]

def spelling : Keyword → String
  | localWord => "local"
  | inWord => "in"
  | ifWord => "if"
  | thenWord => "then"
  | elseWord => "else"
  | whileWord => "while"
  | doWord => "do"
  | loopWord => "loop"
  | funWord => "fun"
  | procWord => "proc"
  | andWord => "and"
  | orWord => "or"
  | notWord => "not"
  | trueWord => "true"
  | falseWord => "false"

/-- the keyword with this spelling -/
def ofSpelling? (word : String) : Option Keyword := all.find? (fun k => k.spelling == word)

end Keyword

/-- punctuation and operators -/
inductive Mark where
  | assign | arrow | semicolon | comma | leftParen | rightParen | leftBrace | rightBrace
  | plus | minus | star | slash | less | greater | lessEqual | greaterEqual | equalEqual | bangEqual
deriving DecidableEq, Repr

namespace Mark

def spelling : Mark → String
  | assign => ":="
  | arrow => "->"
  | semicolon => ";"
  | comma => ","
  | leftParen => "("
  | rightParen => ")"
  | leftBrace => "\x7b"
  | rightBrace => "\x7d"
  | plus => "+"
  | minus => "-"
  | star => "*"
  | slash => "/"
  | less => "<"
  | greater => ">"
  | lessEqual => "<="
  | greaterEqual => ">="
  | equalEqual => "=="
  | bangEqual => "!="

/-- the mark made of two characters -/
def ofPair? : Char → Char → Option Mark
  | ':', '=' => some assign
  | '-', '>' => some arrow
  | '<', '=' => some lessEqual
  | '>', '=' => some greaterEqual
  | '=', '=' => some equalEqual
  | '!', '=' => some bangEqual
  | _, _ => none

/-- the mark made of one character -/
def ofChar? : Char → Option Mark
  | ';' => some semicolon
  | ',' => some comma
  | '(' => some leftParen
  | ')' => some rightParen
  | '\x7b' => some leftBrace
  | '\x7d' => some rightBrace
  | '+' => some plus
  | '-' => some minus
  | '*' => some star
  | '/' => some slash
  | '<' => some less
  | '>' => some greater
  | _ => none

end Mark

inductive Token where
  | number (value : Int64)
  | ident (name : String)
  | keyword (word : Keyword)
  | mark (sign : Mark)
  | eof
deriving DecidableEq, Repr, Inhabited

namespace Token

/-- how the token is written in a text; the end of the text takes no characters -/
def spelling : Token → String
  | number value => toString value.toInt
  | ident name => name
  | keyword word => word.spelling
  | mark sign => sign.spelling
  | eof => ""

/-- how a report names the token -/
def describe : Token → String
  | number value => "number `" ++ toString value.toInt ++ "`"
  | ident name => "identifier `" ++ name ++ "`"
  | keyword word => "`" ++ word.spelling ++ "`"
  | mark sign => "`" ++ sign.spelling ++ "`"
  | eof => "`end of input`"

end Token

/-- a token and where it stands -/
structure Located where
  token : Token
  span : Span
deriving DecidableEq, Repr, Inhabited

end ThreeMachines
