/-
The x86-64 processor, as far as the machines need it.

A run of native code (`run`) starts at its first line and ends where control leaves it: by a jump, by a trap of `idiv`, or
past the last line. It is at fault where the code reads or writes memory that is not there, names a label or a function
that is nowhere, or asks for flags that no comparison has set: `cmp` and `test` set them, other arithmetic leaves them
unknown. Where the lines stand in memory is not modelled but for the place after the last one, so only the last line can
be a `call` within the code. A function of another unit is a change of the processor's state.
-/
import ThreeMachines.Native.Instr
import ThreeMachines.Proofs.Native.Memory

namespace ThreeMachines.Native

/-- what a comparison leaves for conditions -/
structure Flags where
  zero : Bool
  sign : Bool
  overflow : Bool
deriving DecidableEq

/-- flags of `a - b` -/
def Flags.difference (a b : Word) : Flags where
  zero := a - b == 0
  sign := (a - b).msb
  overflow := a.msb != b.msb && a.msb != (a - b).msb

/-- flags of a logical operation -/
def Flags.logical (w : Word) : Flags := ⟨w == 0, w.msb, false⟩

def Cond.holds (f : Flags) : Cond → Bool
  | e => f.zero
  | ne => !f.zero
  | l => f.sign != f.overflow
  | ge => f.sign == f.overflow
  | le => f.zero || f.sign != f.overflow
  | g => !f.zero && f.sign == f.overflow

def Arith.eval : Arith → Word → Word → Word
  | add, a, b => a + b
  | sub, a, b => a - b
  | imul, a, b => a * b
  | and, a, b => a &&& b

def ByteArith.eval : ByteArith → BitVec 8 → BitVec 8 → BitVec 8
  | and, a, b => a &&& b
  | or, a, b => a ||| b

/-- the register of a byte register -/
def ByteReg.full : ByteReg → Reg
  | al => .rax
  | cl => .rcx

theorem ByteReg.full_ne_rsp (b : ByteReg) : b.full ≠ .rsp := by cases b <;> decide

/-- the state of the processor, of its memory and of the C library -/
structure Cpu where
  regs : Reg → Word
  flags : Option Flags
  mem : Bytes
  /-- words that the allocator has handed out -/
  taken : Nat

namespace Cpu

def set (c : Cpu) (r : Reg) (w : Word) : Cpu := { c with regs := fun r' => if r' = r then w else c.regs r' }

def write (c : Cpu) (a w : Word) : Cpu := { c with mem := c.mem.store a w }

def flagged (c : Cpu) (f : Option Flags) : Cpu := { c with flags := f }

def byte (c : Cpu) (b : ByteReg) : BitVec 8 := (c.regs b.full).setWidth 8

/-- the lowest byte of a register becomes `x` -/
def setByte (c : Cpu) (b : ByteReg) (x : BitVec 8) : Cpu :=
  c.set b.full ((c.regs b.full).extractLsb' 8 56 ++ x)

/-- with a word pushed -/
def pushed (c : Cpu) (w : Word) : Cpu := (c.set .rsp (c.regs .rsp - 8)).write (c.regs .rsp - 8) w

/-- with the top popped into a register, if it is `w` -/
def popped (c : Cpu) (r : Reg) (w : Word) : Cpu := (c.set .rsp (c.regs .rsp + 8)).set r w

end Cpu

/-- the address of a memory operand -/
def Mem.address (m : Mem) (c : Cpu) : Word := c.regs m.base + word m.offset

/-- what an operand is worth -/
def Source.value (c : Cpu) : Source → Option Word
  | reg r => some (c.regs r)
  | mem m => c.mem.read (m.address c)
  | imm n => some (word n)
  | char x => some (word x.toNat)

/-- what native code finds around it -/
structure Surroundings where
  /-- code addresses of labels -/
  labels : Label → Option Word
  /-- addresses of data -/
  data : String → Option Word
  /-- functions of other units -/
  imports : String → Option (Cpu → Cpu)
  /-- the address after the last line -/
  next : Word

inductive Outcome where
  /-- on to the next line -/
  | next (c : Cpu)
  /-- on at a code address -/
  | jump (target : Word) (c : Cpu)
  /-- there is no quotient -/
  | trap
  | fault

/-- go on with a word, if there is one -/
def Outcome.given (w : Option Word) (f : Word → Outcome) : Outcome :=
  match w with
  | some w => f w
  | none => fault

open Outcome (given)

/-- write a word into memory that is there -/
def Cpu.writing (c : Cpu) (a w : Word) : Outcome := if (c.mem.read a).isSome then .next (c.write a w) else .fault

def Cpu.pushing (c : Cpu) (w : Word) : Outcome :=
  if (c.mem.read (c.regs .rsp - 8)).isSome then .next (c.pushed w) else .fault

/-- one instruction; `back` is the address of the next line, where it is known -/
def Instr.exec (env : Surroundings) (back : Option Word) (c : Cpu) : Instr → Outcome
  | mov dst src => given (src.value c) fun w => .next (c.set dst w)
  | movConst dst (.int n) => .next (c.set dst (word n))
  | movConst dst (.addr l) | leaLabel dst l => given (env.labels l) fun a => .next (c.set dst a)
  | movDatum dst name => given (env.data name) fun a => .next (c.set dst a)
  | store dst src => given (src.value c) fun w => c.writing (dst.address c) w
  | movzx dst src => .next (c.set dst ((c.byte src).setWidth 64))
  | lea dst src => .next (c.set dst (src.address c))
  | push src => given (src.value c) c.pushing
  | pushZero => c.pushing 0
  | pop dst => given (c.mem.read (c.regs .rsp)) fun w => .next (c.popped dst w)
  | arith op dst src => given (src.value c) fun w => .next ((c.set dst (op.eval (c.regs dst) w)).flagged none)
  | byteArith op dst src => .next ((c.setByte dst (op.eval (c.byte dst) (c.byte src))).flagged none)
  | dec dst => given (c.mem.read (dst.address c)) fun w => (c.flagged none).writing (dst.address c) (w - 1)
  | neg dst => given (c.mem.read (dst.address c)) fun w => (c.flagged none).writing (dst.address c) (-w)
  | test lhs rhs => .next (c.flagged (some (.logical (c.regs lhs &&& c.regs rhs))))
  | cmp lhs rhs => .next (c.flagged (some (.difference (c.regs lhs) (c.regs rhs))))
  | cmpChar lhs x =>
    given (c.mem.read (lhs.address c)) fun w => .next (c.flagged (some (.difference w (word x.toNat))))
  | set cond dst =>
    match c.flags with
    | some f => .next (c.setByte dst (if cond.holds f then 1 else 0))
    | none => .fault
  | cmov cond dst src =>
    match c.flags with
    | some f => .next (if cond.holds f then c.set dst (c.regs src) else c)
    | none => .fault
  | cqo => .next (c.set .rdx (if (c.regs .rax).msb then -1 else 0))
  | idiv src =>
    let dividend := (c.regs .rdx ++ c.regs .rax).toInt
    let divisor := (c.regs src).toInt
    let quotient := dividend.tdiv divisor
    if divisor = 0 ∨ quotient < -2 ^ 63 ∨ 2 ^ 63 ≤ quotient then .trap
    else .next (((c.set .rax (word quotient)).set .rdx (word (dividend.tmod divisor))).flagged none)
  | xchg reg mem => given (c.mem.read (mem.address c)) fun w => (c.set reg w).writing (mem.address c) (c.regs reg)
  | clear => .next ((c.set .rax 0).flagged (some (.logical 0)))
  | jmp l => given (env.labels l) fun a => .jump a c
  | jmpReg r => .jump (c.regs r) c
  | jmpMem m => given (c.mem.read (m.address c)) fun a => .jump a c
  | jcc cond l =>
    match c.flags with
    | some f => if cond.holds f then given (env.labels l) fun a => .jump a c else .next c
    | none => .fault
  | callReg r =>
    given back fun a =>
      match c.pushing a with
      | .next c' => .jump (c.regs r) c'
      | o => o
  | callImport symbol =>
    match env.imports symbol with
    | some f => .next (f c)
    | none => .fault
  | ret => given (c.mem.read (c.regs .rsp)) fun a => .jump a (c.set .rsp (c.regs .rsp + 8))

/-- run native code to where control leaves it -/
def run (env : Surroundings) : Asm → Cpu → Outcome
  | [], c => .jump env.next c
  | .label _ :: rest, c => run env rest c
  | .instr i _ :: rest, c =>
    match i.exec env (if rest.isEmpty then some env.next else none) c with
    | .next c => run env rest c
    | o => o

/-! ## Registers -/

namespace Cpu

variable {c : Cpu} {r r' : Reg} {w : Word}

@[simp] theorem set_self (c : Cpu) (r : Reg) (w : Word) : (c.set r w).regs r = w := if_pos rfl

@[simp] theorem set_other (h : r' ≠ r) : (c.set r w).regs r' = c.regs r' := if_neg h

theorem set_set (c : Cpu) (r : Reg) (v w : Word) : (c.set r v).set r w = c.set r w := by
  rw [set, set, set]
  congr 1
  funext r'
  by_cases h : r' = r <;> simp [h]

@[simp] theorem set_mem (c : Cpu) (r : Reg) (w : Word) : (c.set r w).mem = c.mem := rfl

@[simp] theorem write_regs (c : Cpu) (a w : Word) : (c.write a w).regs = c.regs := rfl

end Cpu

/-! ## Runs -/

variable {env : Surroundings} {c c' : Cpu} {i : Instr} {note : Option String} {rest : Asm} {a : Word}

@[simp] theorem plain_nil : plain [] = [] := rfl

@[simp] theorem plain_cons (i : Instr) (is : List Instr) : plain (i :: is) = .instr i none :: plain is := rfl

@[simp] theorem plain_append (is js : List Instr) : plain (is ++ js) = plain is ++ plain js := List.map_append

@[simp] theorem run_nil : run env [] c = .jump env.next c := rfl

/-- an instruction after which the next line comes -/
theorem run_next (h : ∀ back, i.exec env back c = .next c') : run env (.instr i note :: rest) c = run env rest c' := by
  rw [run, h]

/-- an instruction after which control is elsewhere -/
theorem run_jump (h : ∀ back, i.exec env back c = .jump a c') : run env (.instr i note :: rest) c = .jump a c' := by
  rw [run, h]

end ThreeMachines.Native
