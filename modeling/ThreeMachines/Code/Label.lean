/-
Labels: names of places in code.

A label is spelled `kind_n`. The allocator counts each kind by itself, so a label is fresh whenever its kind's counter
has passed; the digits after the last underscore are the counter, so two kinds never share a spelling.
-/

namespace ThreeMachines

structure Label where
  text : String
deriving DecidableEq, Repr, Hashable, Inhabited

/-- the label of a kind with a number -/
def Label.numbered (kind : String) (n : Nat) : Label := ⟨kind ++ "_" ++ toString n⟩

/-- how many labels of each kind have been issued -/
structure LabelAllocator where
  counters : List (String × Nat)
deriving Repr, Inhabited

namespace LabelAllocator

def empty : LabelAllocator := ⟨[]⟩

/-- labels of a kind issued so far -/
def count (a : LabelAllocator) (kind : String) : Nat := (a.counters.lookup kind).getD 0

/-- count one more label of a kind -/
def bump (kind : String) : List (String × Nat) → List (String × Nat)
  | [] => [(kind, 1)]
  | (other, n) :: rest => if other = kind then (other, n + 1) :: rest else (other, n) :: bump kind rest

/-- a label that was never issued, and the allocator after it -/
def fresh (a : LabelAllocator) (kind : String) : Label × LabelAllocator :=
  (.numbered kind (a.count kind), ⟨bump kind a.counters⟩)

/-- fresh labels of several kinds, in order -/
def freshGroup (a : LabelAllocator) : List String → List Label × LabelAllocator
  | [] => ([], a)
  | kind :: kinds =>
    let (label, a) := a.fresh kind
    let (labels, a) := a.freshGroup kinds
    (label :: labels, a)

/-- labels issued so far -/
def issued (a : LabelAllocator) : Nat := a.counters.foldr (fun counter total => counter.2 + total) 0

end LabelAllocator
end ThreeMachines
