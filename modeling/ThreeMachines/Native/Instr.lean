/-
Instructions of the x86-64 processor, as far as the machines need them.

An instruction is a value, and its text is a function of it. An address is a register plus a displacement. The size of a
memory operand is written only where no register beside it tells the size.
-/
import ThreeMachines.Code.Label
import ThreeMachines.Code.Instr
import ThreeMachines.Text.Line

namespace ThreeMachines.Native

inductive Reg where
  | rax | rcx | rdx | rbx | rsp | rbp | rsi | rdi | r12 | r13 | r14 | r15
deriving DecidableEq, Repr

def Reg.name : Reg → String
  | rax => "rax"
  | rcx => "rcx"
  | rdx => "rdx"
  | rbx => "rbx"
  | rsp => "rsp"
  | rbp => "rbp"
  | rsi => "rsi"
  | rdi => "rdi"
  | r12 => "r12"
  | r13 => "r13"
  | r14 => "r14"
  | r15 => "r15"

/-- lowest byte of a register -/
inductive ByteReg where
  | al | cl
deriving DecidableEq, Repr

def ByteReg.name : ByteReg → String
  | al => "al"
  | cl => "cl"

/-- condition on the flags of a comparison -/
inductive Cond where
  | e | ne | l | g | le | ge
deriving DecidableEq, Repr

def Cond.name : Cond → String
  | e => "e"
  | ne => "ne"
  | l => "l"
  | g => "g"
  | le => "le"
  | ge => "ge"

/-- an address as it is written: a base, and the displacement if it is not 0 -/
def addressText (base : String) (offset : Int) : String :=
  if offset = 0 then "[" ++ base ++ "]"
  else if 0 < offset then "[" ++ base ++ " + " ++ toString offset ++ "]"
  else "[" ++ base ++ " - " ++ toString (-offset) ++ "]"

/-- the word at a register plus a displacement -/
structure Mem where
  base : Reg
  offset : Int
deriving DecidableEq, Repr

def Mem.text (m : Mem) : String := addressText m.base.name m.offset

/-- operand that is only read -/
inductive Source where
  | reg (r : Reg)
  | mem (m : Mem)
  | imm (value : Int)
  /-- a character, as a number -/
  | char (c : Char)
deriving DecidableEq, Repr

/-- operation on a register and an operand -/
inductive Arith where
  | add | sub | imul | and
deriving DecidableEq, Repr

def Arith.name : Arith → String
  | add => "add"
  | sub => "sub"
  | imul => "imul"
  | and => "and"

/-- operation on bytes -/
inductive ByteArith where
  | and | or
deriving DecidableEq, Repr

def ByteArith.name : ByteArith → String
  | and => "and"
  | or => "or"

inductive Instr where
  | mov (dst : Reg) (src : Source)
  /-- move a word or a code address of full width -/
  | movConst (dst : Reg) (value : Const)
  /-- move the address of a datum -/
  | movDatum (dst : Reg) (name : String)
  /-- write to memory -/
  | store (dst : Mem) (src : Source)
  | movzx (dst : Reg) (src : ByteReg)
  /-- the address itself -/
  | lea (dst : Reg) (src : Mem)
  /-- the address of a place in code -/
  | leaLabel (dst : Reg) (label : Label)
  | push (src : Source)
  | pushZero
  | pop (dst : Reg)
  | arith (op : Arith) (dst : Reg) (src : Source)
  | byteArith (op : ByteArith) (dst src : ByteReg)
  | dec (dst : Mem)
  | neg (dst : Mem)
  | test (lhs rhs : Reg)
  | cmp (lhs rhs : Reg)
  | cmpChar (lhs : Mem) (c : Char)
  | set (cond : Cond) (dst : ByteReg)
  | cmov (cond : Cond) (dst src : Reg)
  /-- extend the sign of rax into rdx -/
  | cqo
  | idiv (src : Reg)
  | xchg (reg : Reg) (mem : Mem)
  /-- make rax 0 -/
  | clear
  | jmp (label : Label)
  | jmpReg (target : Reg)
  /-- jump to the address that is stored there -/
  | jmpMem (target : Mem)
  /-- jump if the condition holds -/
  | jcc (cond : Cond) (label : Label)
  | callReg (target : Reg)
  /-- call a function of another unit -/
  | callImport (symbol : String)
  | ret
deriving DecidableEq, Repr

/-- the text of an operand that stands beside a register -/
def Source.text : Source → String
  | reg r => r.name
  | mem m => m.text
  | imm value => toString value
  | char c => "'" ++ c.toString ++ "'"

/-- the text of a memory operand of which nothing else tells the size -/
def Mem.sized (m : Mem) : String := "qword " ++ m.text

/-- the text of an operand without a register beside it -/
def Source.sized : Source → String
  | mem m => m.sized
  | src => src.text

namespace Instr

def mnemonic : Instr → String
  | mov _ _ | movConst _ _ | movDatum _ _ | store _ _ => "mov"
  | movzx _ _ => "movzx"
  | lea _ _ | leaLabel _ _ => "lea"
  | push _ | pushZero => "push"
  | pop _ => "pop"
  | arith op _ _ => op.name
  | byteArith op _ _ => op.name
  | dec _ => "dec"
  | neg _ => "neg"
  | test _ _ => "test"
  | cmp _ _ | cmpChar _ _ => "cmp"
  | set cond _ => "set" ++ cond.name
  | cmov cond _ _ => "cmov" ++ cond.name
  | cqo => "cqo"
  | idiv _ => "idiv"
  | xchg _ _ => "xchg"
  | clear => "xor"
  | jmp _ | jmpReg _ | jmpMem _ => "jmp"
  | jcc cond _ => "j" ++ cond.name
  | callReg _ | callImport _ => "call"
  | ret => "ret"

/-- the operands, with commas between them -/
def operands : Instr → String
  | mov dst src => dst.name ++ ", " ++ src.text
  | movConst dst value => dst.name ++ ", qword " ++ value.text
  | movDatum dst name => dst.name ++ ", " ++ name
  | store dst (.reg src) => dst.text ++ ", " ++ src.name
  | store dst src => dst.sized ++ ", " ++ src.text
  | movzx dst src => dst.name ++ ", " ++ src.name
  | lea dst src => dst.name ++ ", " ++ src.text
  | leaLabel dst label => dst.name ++ ", [rel " ++ label.text ++ "]"
  | push src => src.sized
  | pushZero => "qword 0"
  | pop dst => dst.name
  | arith _ dst src => dst.name ++ ", " ++ src.text
  | byteArith _ dst src => dst.name ++ ", " ++ src.name
  | dec dst | neg dst => dst.sized
  | test lhs rhs | cmp lhs rhs => lhs.name ++ ", " ++ rhs.name
  | cmpChar lhs c => lhs.sized ++ ", '" ++ c.toString ++ "'"
  | set _ dst => dst.name
  | cmov _ dst src => dst.name ++ ", " ++ src.name
  | cqo | ret => ""
  | idiv src => src.name
  | xchg reg mem => reg.name ++ ", " ++ mem.text
  | clear => "eax, eax"
  | jmp label | jcc _ label => label.text
  | jmpReg target | callReg target => target.name
  | jmpMem target => target.sized
  | callImport symbol => symbol

/-- the label that the instruction jumps to or takes the address of -/
def references : Instr → Option Label
  | movConst _ (.addr label) | leaLabel _ label | jmp label | jcc _ label => some label
  | _ => none

end Instr

/-- a part of native code -/
inductive Item where
  | label (label : Label)
  | instr (i : Instr) (note : Option String)
deriving DecidableEq, Repr

def Item.line : Item → Line
  | label l => .label l.text
  | instr i note => .operation i.mnemonic i.operands note

/-- native code -/
abbrev Asm := List Item

/-- instructions without notes -/
def plain (instrs : List Instr) : Asm := instrs.map fun i => .instr i none

end ThreeMachines.Native
