/-
Native code that the machines share.

The native stack is the operand stack. The registers rax, rcx and rdx are free between two instructions of a machine,
and r15 keeps rsp while the C library runs. A comparison leaves 1 or 0; a quotient traps where it does not exist.
-/
import ThreeMachines.Native.Instr

namespace ThreeMachines.Native.Snippet

/-- label of the format in which the result is printed -/
def formatLabel : String := "i64_fmt"

/-- the registers that belong to the caller, in the order in which they are saved -/
def savedRegs : List Reg := [.rbp, .rbx, .r12, .r13, .r14, .r15]

/-- the word at a displacement from the top of the stack -/
def onStack (offset : Int) : Mem := ⟨.rsp, offset⟩

/-- make rax the truth value of a condition and push it -/
def pushCond (cond : Cond) : List Instr := [.set cond .al, .movzx .rax .al, .push (.reg .rax)]

def unary : UnaryOp → List Instr
  | .neg => [.neg (onStack 0)]
  | .not => [.pop .rax, .test .rax .rax] ++ pushCond .e

/-- the condition that a comparison tests -/
def condition : BinaryOp → Cond
  | .lt => .l
  | .gt => .g
  | .le => .le
  | .ge => .ge
  | .eq => .e
  | _ => .ne

/-- make rax the value of the operation on rax and rcx -/
def apply (op : BinaryOp) : List Instr :=
  match op with
  | .add => [.arith .add .rax (.reg .rcx)]
  | .sub => [.arith .sub .rax (.reg .rcx)]
  | .mul => [.arith .imul .rax (.reg .rcx)]
  | .div => [.cqo, .idiv .rcx]
  | .lt | .gt | .le | .ge | .eq | .ne => [.cmp .rax .rcx, .set (condition op) .al, .movzx .rax .al]
  | .and => logical .and
  | .or => logical .or
where
  logical (op : ByteArith) : List Instr :=
    [.test .rax .rax, .set .ne .al, .test .rcx .rcx, .set .ne .cl, .byteArith op .al .cl, .movzx .rax .al]

def binary (op : BinaryOp) : List Instr := [.pop .rcx, .pop .rax] ++ apply op ++ [.push (.reg .rax)]

/-- a block of `words` words on the heap, its address in rdx; the operand stack stays as it is -/
def heapAlloc (words : Int) : List Instr :=
  [.mov .r15 (.reg .rsp), .arith .and .rsp (.imm (-16)), .mov .rdi (.imm (wordSize * words)), .callImport "malloc",
   .mov .rsp (.reg .r15), .mov .rdx (.reg .rax)]

/-- pop words into elements `count`, ..., 1 of the vector in rdx -/
def fillVector : Nat → List Instr
  | 0 => []
  | count + 1 => [.pop .rax, .store ⟨.rdx, wordSize * (count + 1)⟩ (.reg .rax)] ++ fillVector count

/-- pop `n` words into a new vector and push it -/
def mkvec (n : Int) : List Instr :=
  heapAlloc (n + 1) ++ [.store ⟨.rdx, 0⟩ (.imm n)] ++ fillVector n.toNat ++ [.push (.reg .rdx)]

/-- pop a vector and push a block of the code address and the vector -/
def mkfunval (body : Label) : List Instr :=
  heapAlloc 2 ++
    [.leaLabel .rax body, .store ⟨.rdx, 0⟩ (.reg .rax), .pop .rax, .store ⟨.rdx, 8⟩ (.reg .rax), .push (.reg .rdx)]

/-- pop a block of two words and copy it over the one that `target` points at after the pop -/
def copyPair (target : Mem) : List Instr :=
  [.pop .rax, .mov .rcx (.mem target), .mov .rdx (.mem ⟨.rax, 0⟩), .store ⟨.rcx, 0⟩ (.reg .rdx),
   .mov .rdx (.mem ⟨.rax, 8⟩), .store ⟨.rcx, 8⟩ (.reg .rdx)]

/-- drop `words` words under the top -/
def slide (words : Int) : List Instr :=
  if 0 < words then [.pop .rax, .arith .add .rsp (.imm (wordSize * words)), .push (.reg .rax)] else []

/-- the common instructions; the machine's own operations are lowered by `own` -/
def lower {ι : Type} (own : ι → Asm) : ThreeMachines.Instr ι → Asm
  | .loadc value => plain [.movConst .rax value, .push (.reg .rax)]
  | .pop => plain [.arith .add .rsp (.imm 8)]
  | .dup => plain [.push (.mem (onStack 0))]
  | .swap => plain [.pop .rax, .pop .rcx, .push (.reg .rax), .push (.reg .rcx)]
  | .dec => plain [.dec (onStack 0)]
  | .unary op => plain (unary op)
  | .binary op => plain (binary op)
  | .label l => [.label l]
  | .jump target => plain [.jmp target]
  | .jumpz target => plain [.pop .rax, .test .rax .rax, .jcc .e target]
  | .own op => own op

def saveRegs : Asm := plain (savedRegs.map fun r => .push (.reg r))

def restoreRegs : Asm := plain (savedRegs.reverse.map .pop)

/-- print rsi and return 0 to the caller; rsp is as it was at the entry -/
def printAndReturn : Asm :=
  plain [.arith .sub .rsp (.imm 8), .movDatum .rdi formatLabel, .clear] ++
    [.instr (.callImport "printf") (some "print result")] ++
    plain [.arith .add .rsp (.imm 8), .clear, .ret]

/-- start with an empty stack at rbp -/
def openFrame : Asm := saveRegs ++ plain [.mov .rbp (.reg .rsp)]

/-- drop everything down to rbp and print the word that was on top -/
def closeFrame : Asm :=
  [.instr (.pop .rsi) (some "result")] ++ plain [.mov .rsp (.reg .rbp)] ++ restoreRegs ++ printAndReturn

end ThreeMachines.Native.Snippet
