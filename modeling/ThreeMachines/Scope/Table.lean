/-
The scope table: which names are visible where, and what they stand for.

Scopes are numbered in the order of their creation; scope 0 is the global one. A scope has a parent or is detached, and
a parent is always older. A name of a scope is first declared and later bound to an address, once. A declared name
already hides the same name of the scopes around it, and reading it before its address is fixed is an error.

`ScopeTable.chain` is the view that the operations are stated on: the frames from a scope outward.
- `lookup` gives what the nearest frame of the chain that has the name says;
- `bind` fixes an address and refuses to fix it twice;
- `resolveOrAllocate` gives an invisible name the next free word, as a global of the outermost frame of the chain.
-/
import ThreeMachines.Code.Error

namespace ThreeMachines

/-- the number of a scope -/
structure ScopeId where
  index : Nat
deriving DecidableEq, Repr, Inhabited

/-- the state of a name in its frame -/
inductive Slot where
  | declared
  | bound (binding : Binding)
deriving DecidableEq, Repr

/-- one scope: its parent and its names, the newest state of a name first -/
structure Frame where
  parent : Option ScopeId
  slots : List (String × Slot)
deriving DecidableEq, Repr

/-- hands out addresses one after the other and never again -/
structure GlobalAllocator where
  next : Int
deriving DecidableEq, Repr, Inhabited

namespace GlobalAllocator

def empty : GlobalAllocator := ⟨0⟩

/-- the address of the next `size` bytes -/
def allocate (a : GlobalAllocator) (size : Int) : Int × GlobalAllocator := (a.next, ⟨a.next + size⟩)

/-- bytes handed out so far -/
def totalSize (a : GlobalAllocator) : Int := a.next

end GlobalAllocator

/-- the frames of all scopes, the newest first -/
structure ScopeTable where
  frames : List Frame
deriving DecidableEq, Repr

namespace ScopeTable

/-- only the global scope, without names -/
def empty : ScopeTable := ⟨[⟨none, []⟩]⟩

def global : ScopeId := ⟨0⟩

/-- the frames from scope `s` outward, among `count` frames of which the newest comes first -/
def chainIn : List Frame → Nat → ScopeId → List (ScopeId × Frame)
  | [], _, _ => []
  | frame :: older, count, s =>
    if s.index + 1 = count then
      (s, frame) :: (match frame.parent with
        | some parent => chainIn older (count - 1) parent
        | none => [])
    else chainIn older (count - 1) s

/-- the frames from a scope outward, with their numbers -/
def chain (t : ScopeTable) (s : ScopeId) : List (ScopeId × Frame) := chainIn t.frames t.frames.length s

/-- the outermost scope of a chain -/
def root (t : ScopeTable) (s : ScopeId) : ScopeId :=
  match (t.chain s).getLast? with
  | some (outermost, _) => outermost
  | none => s

/-- a new scope whose names are declared -/
def push (t : ScopeTable) (parent : Option ScopeId) (names : List String) : ScopeId × ScopeTable :=
  (⟨t.frames.length⟩, ⟨⟨parent, names.map fun name => (name, .declared)⟩ :: t.frames⟩)

/-- a new scope inside another one -/
def declare (t : ScopeTable) (parent : ScopeId) (names : List String) : ScopeId × ScopeTable :=
  t.push (some parent) names

/-- a new scope that sees no other -/
def detached (t : ScopeTable) (names : List String) : ScopeId × ScopeTable := t.push none names

/-- the place of a scope in the list of frames -/
def place (t : ScopeTable) (s : ScopeId) : Nat := t.frames.length - 1 - s.index

/-- the state of a name in the very frame of a scope -/
def ownSlot? (t : ScopeTable) (s : ScopeId) (name : String) : Option Slot :=
  (t.frames[t.place s]?).bind fun frame => frame.slots.lookup name

/-- fix the address of a name in a scope -/
def bind (t : ScopeTable) (s : ScopeId) (b : Binding) : Except CompileError ScopeTable :=
  match t.ownSlot? s b.name with
  | some (.bound existing) => .error (.internal (.alreadyBound b.name existing))
  | _ => .ok ⟨t.frames.modify (t.place s) fun frame => { frame with slots := (b.name, .bound b) :: frame.slots }⟩

/-- the state of a name in the nearest frame that has it -/
def slot? (t : ScopeTable) (s : ScopeId) (name : String) : Option Slot :=
  (t.chain s).findSome? fun entry => entry.2.slots.lookup name

/-- what a name stands for, seen from a scope -/
def lookup (t : ScopeTable) (s : ScopeId) (name : String) : Except CompileError Binding :=
  match t.slot? s name with
  | some (.bound b) => .ok b
  | some .declared => .error (.internal (.readBeforeFixed name))
  | none => .error (.undefinedVariable name)

/-- whether a name is declared or bound somewhere along the chain -/
def isVisible (t : ScopeTable) (s : ScopeId) (name : String) : Bool := (t.slot? s name).isSome

/-- what an assignment target stands for; an invisible one becomes a global of the root -/
def resolveOrAllocate (t : ScopeTable) (s : ScopeId) (name : String) (globals : GlobalAllocator) :
    Except CompileError (Binding × ScopeTable × GlobalAllocator) :=
  if t.isVisible s name then do
    let b ← t.lookup s name
    return (b, t, globals)
  else do
    let (address, globals) := globals.allocate wordSize
    let b : Binding := ⟨name, .global, address⟩
    let t ← t.bind (t.root s) b
    return (b, t, globals)

/-- put a binding among others by its address -/
def insertByAddress (b : Binding) : List Binding → List Binding
  | [] => [b]
  | other :: rest => if b.address < other.address then b :: other :: rest else other :: insertByAddress b rest

/-- the global bindings of the global scope, in the order of their addresses -/
def globals (t : ScopeTable) : List Binding :=
  let slots := (t.frames.getLast?.map Frame.slots).getD []
  let bindings := slots.filterMap fun entry =>
    match entry.2 with
    | .bound b => if b.storage = .global then some b else none
    | .declared => none
  bindings.reverse.foldl (fun sorted b => insertByAddress b sorted) []

end ScopeTable
end ThreeMachines
