/-
Native code of the closure machine.

rbx holds GP. rbp points at the return address of the newest `mark`, with the caller's rbp and rbx above it.
-/
import ThreeMachines.Native.Unit
import ThreeMachines.Closure.Op

namespace ThreeMachines.Closure

open Native

/-- push new blocks of two words 0 -/
def pushZeroPairs : Nat → List Native.Instr
  | 0 => []
  | count + 1 =>
    Snippet.heapAlloc 2 ++ [.store ⟨.rdx, 0⟩ (.imm 0), .store ⟨.rdx, 8⟩ (.imm 0), .push (.reg .rdx)] ++
      pushZeroPairs count

def lower : Op → Asm
  | .pushloc k => plain [.push (.mem (Snippet.onStack (wordSize * k)))]
  | .storeloc k =>
    plain [.mov .rax (.mem (Snippet.onStack 0)), .store (Snippet.onStack (wordSize * k)) (.reg .rax)]
  | .pushglob i => plain [.push (.mem ⟨.rbx, wordSize * (i + 1)⟩)]
  | .load => plain [.pop .rax, .push (.mem ⟨.rax, 0⟩)]
  | .store => plain [.pop .rax, .mov .rcx (.mem (Snippet.onStack 0)), .store ⟨.rax, 0⟩ (.reg .rcx)]
  | .alloc n => plain (pushZeroPairs n.toNat)
  | .refill k => plain (Snippet.copyPair (Snippet.onStack (wordSize * (k - 1))))
  | .mkvec n => plain (Snippet.mkvec n)
  | .mkfunval body => plain (Snippet.mkfunval body)
  | .mark back =>
    plain [.push (.reg .rbx), .push (.reg .rbp), .leaLabel .rax back, .push (.reg .rax), .mov .rbp (.reg .rsp)]
  | .apply _ => plain [.pop .rax, .mov .rbx (.mem ⟨.rax, 8⟩), .jmpMem ⟨.rax, 0⟩]
  | .popenv =>
    plain [.pop .rax, .mov .rbx (.mem ⟨.rbp, 16⟩)] ++
      [.instr (.store ⟨.rbp, 16⟩ (.reg .rax)) (some "result over saved globals")] ++
      plain [.lea .rsp ⟨.rbp, 16⟩, .mov .rax (.mem ⟨.rbp, 0⟩), .mov .rbp (.mem ⟨.rbp, 8⟩), .jmpReg .rax]
  | .slide n => plain (Snippet.slide n)
  | .setgp => plain [.pop .rbx]

instance : Lowerable Op where
  imports := ["printf", "malloc"]
  lower := lower
  prologue _ := Snippet.openFrame
  epilogue _ := Snippet.closeFrame

end ThreeMachines.Closure
