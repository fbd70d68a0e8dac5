/-
A directory tree, as a value.

A path is followed from the working directory, or from the root, part by part; only a directory can be passed through,
and what has too long a name is not even looked for. A tree lists what stands at its locations. The directories above
the working directory exist, but nothing is known of what else they hold, and no path leads back in from there.
-/
import ThreeMachines.Build.Host

namespace ThreeMachines

/-- where the names of a location begin -/
inductive Base where
  /-- so many levels above the working directory -/
  | above (levels : Nat)
  | root
deriving DecidableEq, Repr

/-- where a path leads: by these names from a base -/
structure Location where
  base : Base
  names : List String
deriving DecidableEq, Repr

inductive Entry where
  | file (bytes : ByteArray)
  | directory
  /-- a file that is always empty, whatever is written to it -/
  | sink

structure Tree where
  entries : List (Location × Entry)

/-- the most bytes that a name may have -/
def longestName : Nat := 255

/-- the most bytes that a path may have -/
def longestPath : Nat := 4095

namespace Location

/-- a location in the working directory -/
def inside (names : List String) : Location := ⟨.above 0, names⟩

/-- from a directory to one of its entries, or to the directory around it -/
def follow (location : Location) : String → Location
  | "." => location
  | ".." =>
    match location.base, location.names with
    | .above levels, [] => ⟨.above (levels + 1), []⟩
    | .root, [] => location
    | base, names => ⟨base, names.dropLast⟩
  | name => ⟨location.base, location.names ++ [name]⟩

end Location

namespace Tree

/-- what is there before anything is made; nothing comes in from the standard input -/
def standard : List (Location × Entry) :=
  (["null", "stdin"].map fun name => (⟨.root, ["dev", name]⟩, .sink)) ++
    ["bin", "dev", "etc", "home", "root", "tmp", "usr", "var"].map fun name => (⟨.root, [name]⟩, .directory)

/-- nothing in the working directory -/
def empty : Tree := ⟨standard⟩

/-- what stands at a location -/
def entry? (t : Tree) (location : Location) : Option Entry :=
  if location.names.isEmpty then some .directory else t.entries.lookup location

/-- look for what stands at a location -/
def look (t : Tree) (location : Location) : Except FileError (Option Entry) :=
  if location.names.any fun name => longestName < name.utf8ByteSize then .error .nameTooLong
  else .ok (t.entry? location)

/-- pass through a directory -/
def step (t : Tree) (location : Location) (part : String) : Except FileError Location := do
  match ← t.look location with
  | some .directory => return location.follow part
  | some _ => .error .notDirectory
  | none => .error .notFound

/-- the location that a path leads to, whether something stands there or not -/
def resolve (t : Tree) (p : Path) : Except FileError Location :=
  if p.text.toList.contains '\x00' then .error .zeroByte
  else if p.text = "" then .error .notFound
  else if longestPath < p.text.utf8ByteSize then .error .nameTooLong
  else (p.parts.filter fun part => part ≠ "").foldlM t.step (if p.isAbsolute then ⟨.root, []⟩ else .inside [])

/-- what a path leads to -/
def find (t : Tree) (p : Path) : Except FileError Entry := do
  match ← t.look (← t.resolve p) with
  | some .directory => return .directory
  | some entry => if p.endsInSlash then .error .notDirectory else return entry
  | none => .error .notFound

def read (t : Tree) (p : Path) : Except FileError ByteArray := do
  match ← t.find p with
  | .file bytes => return bytes
  | .sink => return .empty
  | .directory => .error .isDirectory

def isFile (t : Tree) (p : Path) : Bool :=
  match t.find p with
  | .ok (.file _) => true
  | _ => false

/-- put a file at a location -/
def put (t : Tree) (location : Location) (bytes : ByteArray) : Tree :=
  ⟨(location, .file bytes) :: t.entries.filter fun entry => entry.1 ≠ location⟩

/-- take away what stands at a location -/
def erase (t : Tree) (location : Location) : Tree := ⟨t.entries.filter fun entry => entry.1 ≠ location⟩

def write (t : Tree) (p : Path) (bytes : ByteArray) : Except FileError Tree := do
  let location ← t.resolve p
  if p.endsInSlash then .error .isDirectory
  else match ← t.look location with
    | some .directory => .error .isDirectory
    | some .sink => return t
    | some (.file _) | none => return t.put location bytes

/-- remove a file; what is no file stays -/
def remove (t : Tree) (p : Path) : Tree :=
  match t.resolve p with
  | .ok location => if t.isFile p then t.erase location else t
  | .error _ => t

/-- why a name cannot be started as a tool; one with a slash is a path, and no file of a tree is a program -/
def startError (t : Tree) (name : String) : FileError :=
  if name.toList.contains '/' then
    match t.find ⟨name⟩ with
    | .ok _ => .denied
    | .error e => e
  else if longestName < name.utf8ByteSize then .nameTooLong
  else .notFound

/-- the directories above a location in the working directory -/
def above : List String → List (List String)
  | [] | [_] => []
  | name :: rest => [name] :: (above rest).map fun names => name :: names

/-- add a directory to the working directory, unless something stands there -/
def addDirectory (t : Tree) (names : List String) : Tree :=
  if (t.entry? (.inside names)).isSome then t else ⟨(.inside names, .directory) :: t.entries⟩

/-- add a file to the working directory, and the directories above it -/
def addFile (t : Tree) (names : List String) (bytes : ByteArray) : Tree :=
  ((above names).foldl addDirectory t).put (.inside names) bytes

/-- the files in the working directory, with their names from there on -/
def files (t : Tree) : List (List String × ByteArray) :=
  t.entries.filterMap fun entry =>
    match entry with
    | (⟨.above 0, names⟩, .file bytes) => some (names, bytes)
    | _ => none

end Tree
end ThreeMachines
