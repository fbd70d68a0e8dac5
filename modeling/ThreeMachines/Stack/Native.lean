/-
Native code of the stack machine.

Both stacks grow downward together: the word at the machine's address `a` lies at `rbx - a`, and rbp holds the frame
pointer as a machine address.
-/
import ThreeMachines.Native.Unit
import ThreeMachines.Stack.Op

namespace ThreeMachines.Stack

open Native

/-- make rcx the native address of the machine address in rax -/
def locate : List Native.Instr := [.mov .rcx (.reg .rbx), .arith .sub .rcx (.reg .rax)]

/-- move kept words over dropped ones, word `count - 1` first, so that no word is overwritten before it is read -/
def moveWords (drop : Int) : Nat → List Native.Instr
  | 0 => []
  | count + 1 =>
    [.mov .rax (.mem (Snippet.onStack (wordSize * count))),
     .store (Snippet.onStack (drop + wordSize * count)) (.reg .rax)] ++ moveWords drop count

def lower : Op → Asm
  | .load => plain ([.pop .rax] ++ locate ++ [.push (.mem ⟨.rcx, 0⟩)])
  | .store =>
    plain ([.pop .rax] ++ locate ++ [.mov .rdx (.mem (Snippet.onStack 0)), .store ⟨.rcx, 0⟩ (.reg .rdx)])
  | .loadrc offset => plain [.mov .rax (.reg .rbp), .arith .add .rax (.imm offset), .push (.reg .rax)]
  | .enter => plain [.mov .rbp (.reg .rbx), .arith .sub .rbp (.reg .rsp)]
  | .alloc bytes => plain [.arith .sub .rsp (.imm bytes)]
  | .mark => plain [.push (.reg .rbp)]
  | .call => plain [.pop .rax, .callReg .rax]
  | .ret =>
    plain [.mov .rsp (.reg .rbx), .arith .sub .rsp (.reg .rbp)] ++
      [.instr (.mov .rbp (.mem (Snippet.onStack 8))) (some "caller frame")] ++ plain [.ret]
  | .slide drop keep =>
    plain (moveWords drop (keep.tdiv wordSize).toNat ++ [.arith .add .rsp (.imm drop)])

/-- push the globals and point at the first and the last of them -/
def prologue (p : Program Op) : Asm :=
  Snippet.saveRegs ++ p.globals.map (fun b => .instr .pushZero (some b.name)) ++
    plain [.lea .rbx (Snippet.onStack (p.globalSpace - wordSize)), .mov .rbp (.reg .rbx),
      .arith .sub .rbp (.reg .rsp)]

/-- drop everything down to the saved registers -/
def epilogue : Asm :=
  [.instr (.pop .rsi) (some "result")] ++ plain [.lea .rsp ⟨.rbx, 8⟩] ++ Snippet.restoreRegs ++
    Snippet.printAndReturn

instance : Lowerable Op where
  imports := ["printf"]
  lower := lower
  prologue := prologue
  epilogue _ := epilogue

end ThreeMachines.Stack
