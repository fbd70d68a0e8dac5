/-
Paths of files.

A path is a text in which slashes separate parts. `Path.components` is its meaning: empty parts and single dots do not
count, except that a dot at the start of a relative path does. Two paths are alike if their components agree. The name
of a file is the last component, and its extension what follows the last dot of the name, unless that dot is the first
character.
-/
import ThreeMachines.Text.Blank

namespace ThreeMachines

structure Path where
  text : String
deriving DecidableEq, Repr

inductive Component where
  /-- the start of an absolute path -/
  | root
  /-- a dot at the start -/
  | here
  | parent
  | name (text : String)
deriving DecidableEq, Repr

namespace Path

/-- the texts between slashes -/
def parts (p : Path) : List String := (Text.splitAt '/' p.text.toList).map String.ofList

def isAbsolute (p : Path) : Bool := p.text.startsWith "/"

/-- the path cannot be a file's: it ends in a slash -/
def endsInSlash (p : Path) : Bool := p.text.endsWith "/"

def component? (part : String) : Option Component :=
  if part = "" ∨ part = "." then none
  else if part = ".." then some .parent
  else some (.name part)

def components (p : Path) : List Component :=
  (if p.isAbsolute then [.root] else if p.parts.head? = some "." then [.here] else []) ++
    p.parts.filterMap component?

/-- the paths have the same components -/
def alike (p q : Path) : Bool := p.components = q.components

/-- the last component, if it is a name -/
def fileName? (p : Path) : Option String :=
  match p.components.getLast? with
  | some (.name text) => some text
  | _ => none

/-- what follows the last dot of a name, unless the dot is its first character -/
def extensionOf? (name : String) : Option String :=
  let reversed := name.toList.reverse
  match reversed.dropWhile (fun c => c ≠ '.') with
  | [] | [_] => none
  | _ :: _ :: _ => some (String.ofList (reversed.takeWhile fun c => c ≠ '.').reverse)

def extension? (p : Path) : Option String := p.fileName?.bind extensionOf?

/-- the characters of a reversed path from the end of its last name on -/
def dropSlashes : List Char → List Char
  | '/' :: rest => dropSlashes rest
  | '.' :: '/' :: rest => dropSlashes rest
  | rest => rest

/-- the path without its extension and without what follows its last name -/
def stem (p : Path) : String :=
  let reversed := dropSlashes p.text.toList.reverse
  match p.extension? with
  | some ext => String.ofList (reversed.drop (ext.length + 1)).reverse
  | none => String.ofList reversed.reverse

/-- the path up to the dot before its extension, if it has one -/
def upToDot (p : Path) : Path :=
  match p.extension? with
  | some ext => ⟨String.ofList (p.text.toList.take (p.text.length - ext.length))⟩
  | none => p

/--
the path with another extension, or without one if it is empty. The old extension goes first, and a path that has no
name then, which is one without a name or one that leaves two dots, is not extended.
-/
def withExtension (p : Path) (ext : String) : Path :=
  let bare := p.upToDot
  match bare.fileName? with
  | some _ => ⟨bare.stem ++ (if ext = "" then "" else "." ++ ext)⟩
  | none => bare

end Path
end ThreeMachines
