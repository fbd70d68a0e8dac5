/-
Native code of the vector machine.

r12, r13 and r14 hold the vectors of captured cells, of parameters and of return addresses. rbp points at the caller's
saved rbp; above it lie the caller's r12, r14 and r13 and the cell of the function.
-/
import ThreeMachines.Native.Unit
import ThreeMachines.Vector.Op

namespace ThreeMachines.Vector

open Native

/-- pop a payload and push a new cell of it -/
def pushCell (tag : Tag) : List Native.Instr :=
  Snippet.heapAlloc 2 ++
    [.pop .rax, .store ⟨.rdx, 0⟩ (.reg .rax), .store ⟨.rdx, 8⟩ (.char tag.char), .push (.reg .rdx)]

/-- push new cells that hold 0 -/
def pushZeroCells : Nat → List Native.Instr
  | 0 => []
  | count + 1 =>
    Snippet.heapAlloc 1 ++ [.store ⟨.rdx, 0⟩ (.imm 0), .push (.reg .rdx)] ++ pushCell .basic ++ pushZeroCells count

def lower : Op → Asm
  | .mkbasic => plain (Snippet.heapAlloc 1 ++ [.pop .rax, .store ⟨.rdx, 0⟩ (.reg .rax), .push (.reg .rdx)])
  | .getbasic =>
    plain [.pop .rdx, .mov .rax (.mem ⟨.rdx, 0⟩), .mov .rcx (.mem ⟨.rax, 0⟩), .cmpChar ⟨.rdx, 8⟩ Tag.basic.char] ++
      [.instr (.cmov .e .rax .rcx) (some "other tags keep the payload")] ++ plain [.push (.reg .rax)]
  | .mkind tag => plain (pushCell tag)
  | .copy =>
    plain (Snippet.heapAlloc 2 ++
      [.pop .rax, .mov .rcx (.mem ⟨.rax, 0⟩), .store ⟨.rdx, 0⟩ (.reg .rcx), .mov .rcx (.mem ⟨.rax, 8⟩),
       .store ⟨.rdx, 8⟩ (.reg .rcx), .push (.reg .rdx)])
  | .mkvec n => plain (Snippet.mkvec n)
  | .mkfunval body => plain (Snippet.mkfunval body)
  | .pushloc a => plain [.push (.mem ⟨.rbp, -wordSize * a⟩)]
  | .pushglob i => plain [.push (.mem ⟨.r12, wordSize * (i + 1)⟩)]
  | .pushform i => plain [.push (.mem ⟨.r13, wordSize * (i + 1)⟩)]
  | .alloc n => plain (pushZeroCells n.toNat)
  | .store => plain (Snippet.copyPair (Snippet.onStack 0))
  | .setgp => plain [.pop .r12]
  | .call =>
    [.instr (.mov .rdx (.mem (Snippet.onStack 16))) (some "callee cell")] ++
      plain [.mov .rdx (.mem ⟨.rdx, 0⟩), .push (.reg .r12), .mov .r12 (.mem ⟨.rdx, 8⟩), .push (.reg .rbp),
        .mov .rbp (.reg .rsp), .xchg .r14 ⟨.rbp, 16⟩, .xchg .r13 ⟨.rbp, 24⟩, .jmpMem ⟨.rdx, 0⟩]
  | .ret i =>
    plain [.pop .rax] ++ [.instr (.store ⟨.rbp, 32⟩ (.reg .rax)) (some "result over callee cell")] ++
      plain [.mov .rsp (.reg .rbp), .pop .rbp, .pop .r12, .mov .rax (.mem ⟨.r14, wordSize * (i + 1)⟩), .pop .r14,
        .pop .r13, .jmpReg .rax]
  | .slide n => plain (Snippet.slide n)

instance : Lowerable Op where
  imports := ["printf", "malloc"]
  lower := lower
  prologue _ := Snippet.openFrame
  epilogue _ := Snippet.closeFrame

end ThreeMachines.Vector
