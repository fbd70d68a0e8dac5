/-
Where a step may lead, and with which faults it may end, whatever the program.

An instruction finds its way by labels and by code addresses; both are looked up, and a look-up that fails ends the run
before the machine has moved. So no step leaves the code: the next instruction is one of the image or its end.

- `Exec.Confined`: a part of the work of an instruction keeps the machine inside the code, and fails only for reasons of
  its own (`Fault.ArisesFrom`): it asks for no label but the one that the instruction names, and knows no limit.
- `confined_exec`: the operations of every machine are confined, each to its own label (`Operation.reference`).
- `step_inside`, `step_error`: a step ends inside the code or in a fault of the instruction there; the fetch itself fails
  only outside of the code.
- `Program.pc_le_of_visits`: no state that a run of a program goes through (`Image.Visits`) lies behind the code.
- `Program.simulate_error`: what a program that fails may have failed with.
-/
import ThreeMachines.Compile
import ThreeMachines.Proofs.Success
import ThreeMachines.Proofs.Labels.Targets

namespace ThreeMachines

/-- an instruction that names the label `named` may fail so: for want of words, of a place or of a quotient, or since
nothing bears the label -/
def Fault.ArisesFrom {ι : Type} (image : Image ι) (named : Option Label) : Fault → Prop
  | .unknownLabel text => ∃ l, named = some l ∧ image.target l = .error (.unknownLabel text)
  | .badAddress _ place => place ≠ .instruction
  | .stepLimit _ => False
  | .stackUnderflow _ | .divisionByZero | .overflow => True

/-- every label names a place in the image, or its end -/
def Image.Bounded {ι : Type} (image : Image ι) : Prop := ∀ l pc, image.target l = .ok pc → pc ≤ image.stop

theorem Image.bounded_ofProgram {ι : Type} (p : Program ι) : (ofProgram p).Bounded := fun _ _ => le_stop_of_target

namespace Exec

variable {ι ρ α β : Type} {image : Image ι} {named : Option Label} {x : Exec ρ α} {f : α → Exec ρ β}

/-- the work keeps the next instruction inside the code and fails as an instruction may that names the label `named` -/
structure Confined (image : Image ι) (named : Option Label) (x : Exec ρ α) : Prop where
  inside : ∀ {s a t}, x s = .ok a t → s.pc ≤ image.stop → t.pc ≤ image.stop
  faults : ∀ {s e t}, x s = .error e t → e.ArisesFrom image named

theorem confined_pure (a : α) : Confined image named (pure a : Exec ρ α) := by
  constructor
  · rintro s _ _ ⟨⟩ hs
    exact hs
  · rintro s _ _ ⟨⟩

theorem Confined.bind (hx : Confined image named x) (hf : ∀ a, Confined image named (f a)) :
    Confined image named (x >>= f) := by
  constructor
  · intro s b u h hs
    obtain ⟨a, t, hxs, hft⟩ := bind_ok h
    exact (hf a).inside hft (hx.inside hxs hs)
  · intro s e u h
    rcases bind_error h with hxs | ⟨a, t, -, hft⟩
    · exact hx.faults hxs
    · exact (hf a).faults hft

/-! ## The stack -/

theorem Underflows.confined {step : StackM α} (hstep : Underflows step) :
    Confined image named (onStack step : Exec ρ α) := by
  constructor
  · rintro ⟨pc, stack, heap, regs⟩ a t h hs
    simp only [onStack] at h
    split at h <;> cases h
    exact hs
  · rintro ⟨pc, stack, heap, regs⟩ e t h
    simp only [onStack] at h
    split at h
    · cases h
    · next hs =>
      cases h
      obtain ⟨pc, rfl⟩ := hstep _ _ _ hs
      trivial

theorem confined_push (w : Int) : Confined image named (push w : Exec ρ Unit) := (underflows_push w).confined

theorem confined_pop : Confined image named (pop : Exec ρ Int) := underflows_pop.confined

theorem confined_peek (d : Nat) : Confined image named (peek d : Exec ρ Int) :=
  ((underflows_indexFromTop d).bind underflows_get).confined

theorem confined_top : Confined image named (top : Exec ρ Int) := confined_peek 0

theorem confined_poke (d : Nat) (w : Int) : Confined image named (poke d w : Exec ρ Unit) :=
  ((underflows_indexFromTop d).bind fun i => underflows_set i w).confined

theorem confined_getAt (i : Nat) : Confined image named (getAt i : Exec ρ Int) := (underflows_get i).confined

theorem confined_setAt (i : Nat) (w : Int) : Confined image named (setAt i w : Exec ρ Unit) :=
  (underflows_set i w).confined

theorem confined_truncate (k : Nat) : Confined image named (truncate k : Exec ρ Unit) :=
  Underflows.confined fun _ _ _ h => by cases h

theorem confined_drop (k : Nat) : Confined image named (drop k : Exec ρ Unit) := (underflows_drop k).confined

theorem confined_slide (k : Nat) : Confined image named (slide k : Exec ρ Unit) :=
  (underflows_pop.bind fun w => (underflows_drop k).bind fun _ => underflows_push w).confined

theorem confined_pushTimes (w : Int) (count : Nat) : Confined image named (pushTimes w count : Exec ρ Unit) := by
  induction count with
  | zero => exact confined_pure ()
  | succ count ih => exact (confined_push w).bind fun _ => ih

theorem confined_popTimes (count : Nat) : Confined image named (popTimes count : Exec ρ (List Int)) := by
  induction count with
  | zero => exact confined_pure []
  | succ count ih => exact confined_pop.bind fun _ => ih.bind fun _ => confined_pure _

theorem confined_pushAll (ws : List Int) : Confined image named (pushAll ws : Exec ρ Unit) := by
  induction ws with
  | nil => exact confined_pure ()
  | cons w ws ih => exact ih.bind fun _ => confined_push w

/-! ## Questions to the state -/

/-- work that leaves the place in the code alone and always succeeds -/
theorem confined_of_ok (h : ∀ s, ∃ a t, x s = .ok a t ∧ t.pc = s.pc) : Confined image named x := by
  constructor
  · intro s a t hs hpc
    obtain ⟨a', t', hok, ht⟩ := h s
    cases hok.symm.trans hs
    exact ht.trans_le hpc
  · intro s e t hs
    obtain ⟨a', t', hok, -⟩ := h s
    cases hok.symm.trans hs

theorem confined_stackSize : Confined image named (stackSize : Exec ρ Nat) := confined_of_ok fun s => ⟨_, s, rfl, rfl⟩

theorem confined_next : Confined image named (next : Exec ρ Nat) := confined_of_ok fun s => ⟨_, s, rfl, rfl⟩

theorem confined_registers : Confined image named (registers : Exec ρ ρ) := confined_of_ok fun s => ⟨_, s, rfl, rfl⟩

theorem confined_setRegisters (regs : ρ) : Confined image named (setRegisters regs : Exec ρ Unit) :=
  confined_of_ok fun _ => ⟨_, _, rfl, rfl⟩

/-! ## The heap -/

theorem confined_onHeap {step : HeapM α} (hstep : ∀ h e h', step h = .error e h' → ∃ a, e = .badAddress a .heap) :
    Confined image named (onHeap step : Exec ρ α) := by
  constructor
  · rintro ⟨pc, stack, heap, regs⟩ a t h hs
    simp only [onHeap] at h
    split at h <;> cases h
    exact hs
  · rintro ⟨pc, stack, heap, regs⟩ e t h
    simp only [onHeap] at h
    split at h
    · cases h
    · next hs =>
      cases h
      obtain ⟨a, rfl⟩ := hstep _ _ _ hs
      simp [Fault.ArisesFrom]

theorem confined_alloc (k : Nat) : Confined image named (alloc k : Exec ρ Int) :=
  confined_onHeap fun _ _ _ h => by cases h

theorem confined_load (a : Int) : Confined image named (load a : Exec ρ Int) := by
  refine confined_onHeap fun heap e heap' h => ?_
  simp only [Heap.load, Heap.index] at h
  split_ifs at h
  cases h
  exact ⟨a, rfl⟩

theorem confined_store (a w : Int) : Confined image named (store a w : Exec ρ Unit) := by
  refine confined_onHeap fun heap e heap' h => ?_
  simp only [Heap.store, Heap.index] at h
  split_ifs at h
  cases h
  exact ⟨a, rfl⟩

/-! ## Look-ups -/

/-- what a look-up finds is known to the rest of the work -/
theorem confined_check_bind {found : Except Fault α} (hfault : ∀ e, found = .error e → e.ArisesFrom image named)
    (hfound : ∀ a, found = .ok a → Confined image named (f a)) : Confined image named (check found >>= f) := by
  cases found with
  | ok a => exact ⟨fun h hs => (hfound a rfl).inside h hs, fun h => (hfound a rfl).faults h⟩
  | error e =>
    constructor
    · rintro s _ _ ⟨⟩
    · rintro s _ _ ⟨⟩
      exact hfault e rfl

theorem confined_jumpTo {pc : Nat} (h : pc ≤ image.stop) : Confined image named (jumpTo pc : Exec ρ Unit) := by
  constructor
  · rintro s _ _ ⟨⟩ -
    exact h
  · rintro s _ _ ⟨⟩

/-- a place that a word does not name, whatever it was taken as -/
theorem arisesFrom_badAddress {found : Except Fault α} (place : Place) (hplace : place ≠ .instruction)
    (h : ∀ e, found = .error e → ∃ a, e = .badAddress a place) (e : Fault) (he : found = .error e) :
    e.ArisesFrom image named := by
  obtain ⟨a, rfl⟩ := h e he
  exact hplace

theorem arisesFrom_pcOf (a : Int) (e : Fault) : image.pcOf a = .error e → e.ArisesFrom image named := by
  refine arisesFrom_badAddress .code nofun (fun e h => ?_) e
  simp only [Image.pcOf] at h
  split_ifs at h
  cases h
  exact ⟨a, rfl⟩

theorem arisesFrom_stackOffset (k : Int) (e : Fault) : stackOffset k = .error e → e.ArisesFrom image named := by
  refine arisesFrom_badAddress .stackOffset nofun (fun e h => ?_) e
  rw [stackOffset] at h
  split_ifs at h
  cases h
  exact ⟨k, rfl⟩

theorem arisesFrom_target (l : Label) (e : Fault) (h : image.target l = .error e) : e.ArisesFrom image (some l) := by
  have htext : e = .unknownLabel l.text := by
    rw [Image.target] at h
    split at h <;> cases h
    rfl
  subst htext
  exact ⟨l, rfl, h⟩

theorem arisesFrom_addressOf (l : Label) (e : Fault) (h : image.addressOf l = .error e) :
    e.ArisesFrom image (some l) := by
  refine arisesFrom_target l e ?_
  rw [Image.addressOf] at h
  cases ht : image.target l with
  | ok pc =>
    rw [ht] at h
    cases h
  | error e' =>
    rw [ht] at h
    cases h
    rfl

/-- a jump to a label -/
theorem confined_goto (hb : image.Bounded) (l : Label) :
    Confined image (some l) (check (image.target l) >>= jumpTo : Exec ρ Unit) :=
  confined_check_bind (arisesFrom_target l) fun pc hpc => confined_jumpTo (hb l pc hpc)

/-- a jump to a code address -/
theorem confined_jumpAddress (a : Int) : Confined image named (check (image.pcOf a) >>= jumpTo : Exec ρ Unit) := by
  refine confined_check_bind (arisesFrom_pcOf a) fun pc hpc => confined_jumpTo ?_
  simp only [Image.pcOf] at hpc
  split_ifs at hpc with hin
  cases hpc
  exact hin.2.le

/-! ## Blocks -/

theorem confined_element (vector i : Int) : Confined image named (element vector i : Exec ρ Int) := confined_load _

theorem confined_makePair (a b : Int) : Confined image named (makePair a b : Exec ρ Int) :=
  (confined_alloc 2).bind fun _ => (confined_store _ _).bind fun _ => (confined_store _ _).bind fun _ =>
    confined_pure _

theorem confined_copyPair (source dest : Int) : Confined image named (copyPair source dest : Exec ρ Unit) :=
  (confined_load _).bind fun _ => (confined_store _ _).bind fun _ => (confined_load _).bind fun _ =>
    confined_store _ _

theorem confined_makeFunction (body : Label) : Confined image (some body) (makeFunction image body : Exec ρ Int) :=
  (confined_alloc 2).bind fun _ => confined_check_bind (arisesFrom_addressOf body) fun _ _ =>
    (confined_store _ _).bind fun _ => confined_pop.bind fun _ => (confined_store _ _).bind fun _ => confined_pure _

theorem confined_fillVector (vector : Int) (count : Nat) :
    Confined image named (fillVector vector count : Exec ρ Unit) := by
  induction count with
  | zero => exact confined_pure ()
  | succ count ih => exact confined_pop.bind fun _ => (confined_store _ _).bind fun _ => ih

theorem confined_makeVector (n : Int) : Confined image named (makeVector n : Exec ρ Int) :=
  confined_check_bind (arisesFrom_stackOffset n) fun count _ => (confined_alloc _).bind fun vector =>
    (confined_store _ _).bind fun _ => (confined_fillVector vector count).bind fun _ => confined_pure _

end Exec

open Exec

/-! ## The operations of the machines -/

theorem Stack.arisesFrom_slot {image : Image Op} {named : Option Label} (a : Int) (e : Fault) :
    slot a = .error e → e.ArisesFrom image named := by
  refine arisesFrom_badAddress .stack nofun (fun e h => ?_) e
  rw [slot] at h
  split_ifs at h
  cases h
  exact ⟨a, rfl⟩

theorem Stack.confined_exec (image : Image Op) (op : Op) : Confined image (Operation.reference op) (exec image op) := by
  cases op with
  | load =>
    exact confined_pop.bind fun a => confined_check_bind (arisesFrom_slot a) fun i _ =>
      (confined_getAt i).bind confined_push
  | store =>
    exact confined_pop.bind fun a => confined_top.bind fun w => confined_check_bind (arisesFrom_slot a) fun i _ =>
      confined_setAt i w
  | loadrc offset => exact confined_registers.bind fun _ => confined_push _
  | enter => exact confined_stackSize.bind fun _ => confined_setRegisters _
  | alloc bytes => exact confined_pushTimes 0 _
  | mark => exact confined_registers.bind fun _ => confined_push _
  | call =>
    exact confined_pop.bind fun target => confined_next.bind fun _ => (confined_push _).bind fun _ =>
      confined_jumpAddress target
  | ret =>
    exact confined_registers.bind fun regs => confined_check_bind (arisesFrom_slot regs.fp) fun place _ =>
      (confined_truncate _).bind fun _ => confined_pop.bind fun back => confined_top.bind fun _ =>
      (confined_setRegisters _).bind fun _ => confined_jumpAddress back
  | slide drop keep =>
    exact (confined_popTimes _).bind fun kept => (confined_drop _).bind fun _ => confined_pushAll kept

theorem Closure.arisesFrom_frame {image : Image Op} {named : Option Label} (fp : Int) (e : Fault) :
    frame fp = .error e → e.ArisesFrom image named := by
  refine arisesFrom_badAddress .frame nofun (fun e h => ?_) e
  rw [frame] at h
  split_ifs at h
  cases h
  exact ⟨fp, rfl⟩

theorem Closure.confined_pushBlocks {image : Image Op} {named : Option Label} (count : Nat) :
    Confined image named (pushBlocks count) := by
  induction count with
  | zero => exact confined_pure ()
  | succ count ih => exact (confined_alloc 2).bind fun _ => (confined_push _).bind fun _ => ih

theorem Closure.confined_exec (image : Image Op) (op : Op) :
    Confined image (Operation.reference op) (exec image op) := by
  cases op with
  | pushloc k =>
    exact confined_check_bind (arisesFrom_stackOffset k) fun d _ => (confined_peek d).bind confined_push
  | storeloc k =>
    exact confined_check_bind (arisesFrom_stackOffset k) fun d _ => confined_top.bind fun w => confined_poke d w
  | pushglob i => exact confined_registers.bind fun _ => (confined_element _ i).bind confined_push
  | load => exact confined_pop.bind fun _ => (confined_load _).bind confined_push
  | store => exact confined_pop.bind fun cell => confined_top.bind fun w => confined_store cell w
  | alloc n => exact confined_pushBlocks _
  | refill k =>
    exact confined_pop.bind fun closure => confined_check_bind (arisesFrom_stackOffset _) fun d _ =>
      (confined_peek d).bind fun cell => confined_copyPair closure cell
  | mkvec n => exact (confined_makeVector n).bind confined_push
  | mkfunval body => exact (confined_makeFunction body).bind confined_push
  | mark back =>
    exact confined_registers.bind fun regs => (confined_push _).bind fun _ => (confined_push _).bind fun _ =>
      confined_check_bind (arisesFrom_addressOf back) fun _ _ => (confined_push _).bind fun _ =>
      confined_stackSize.bind fun _ => confined_setRegisters _
  | apply n =>
    exact confined_pop.bind fun closure => (confined_load _).bind fun _ => confined_registers.bind fun _ =>
      (confined_setRegisters _).bind fun _ => (confined_load closure).bind confined_jumpAddress
  | popenv =>
    exact confined_pop.bind fun result => confined_registers.bind fun regs =>
      confined_check_bind (arisesFrom_frame regs.fp) fun place _ => (confined_getAt _).bind fun back =>
      (confined_getAt _).bind fun fp => (confined_getAt _).bind fun gp => (confined_truncate _).bind fun _ =>
      (confined_push result).bind fun _ => (confined_setRegisters _).bind fun _ => confined_jumpAddress back
  | slide n => exact confined_check_bind (arisesFrom_stackOffset n) fun k _ => confined_slide k
  | setgp => exact confined_pop.bind fun _ => confined_registers.bind fun _ => confined_setRegisters _

theorem Vector.arisesFrom_slot {image : Image Op} {named : Option Label} (index : Int) (e : Fault) :
    slot index = .error e → e.ArisesFrom image named := by
  refine arisesFrom_badAddress .stackSlot nofun (fun e h => ?_) e
  rw [slot] at h
  split_ifs at h
  cases h
  exact ⟨index, rfl⟩

theorem Vector.arisesFrom_calleeSlot {image : Image Op} {named : Option Label} (fp : Int) (e : Fault) :
    calleeSlot fp = .error e → e.ArisesFrom image named := by
  refine arisesFrom_badAddress .frame nofun (fun e h => ?_) e
  rw [calleeSlot] at h
  split_ifs at h
  cases h
  exact ⟨fp, rfl⟩

theorem Vector.confined_pushCells {image : Image Op} {named : Option Label} (count : Nat) :
    Confined image named (pushCells count) := by
  induction count with
  | zero => exact confined_pure ()
  | succ count ih =>
    exact (confined_alloc 1).bind fun _ => (confined_makePair _ _).bind fun _ => (confined_push _).bind fun _ => ih

theorem Vector.confined_exec (image : Image Op) (op : Op) : Confined image (Operation.reference op) (exec image op) := by
  cases op with
  | mkbasic =>
    exact (confined_alloc 1).bind fun basic => confined_pop.bind fun _ => (confined_store _ _).bind fun _ =>
      confined_push basic
  | getbasic =>
    refine confined_pop.bind fun cell => (confined_load _).bind fun payload => (confined_load _).bind fun tag => ?_
    split
    · exact (confined_load _).bind confined_push
    · exact confined_push payload
  | mkind tag => exact confined_pop.bind fun w => (confined_makePair w _).bind confined_push
  | copy =>
    exact confined_pop.bind fun cell => (confined_alloc 2).bind fun new => (confined_copyPair cell new).bind fun _ =>
      confined_push new
  | mkvec n => exact (confined_makeVector n).bind confined_push
  | mkfunval body => exact (confined_makeFunction body).bind confined_push
  | pushloc a =>
    exact confined_registers.bind fun _ => confined_check_bind (arisesFrom_slot _) fun i _ =>
      (confined_getAt i).bind confined_push
  | pushglob i => exact confined_registers.bind fun _ => (confined_element _ i).bind confined_push
  | pushform i => exact confined_registers.bind fun _ => (confined_element _ i).bind confined_push
  | alloc n => exact confined_pushCells _
  | store => exact confined_pop.bind fun source => confined_top.bind fun dest => confined_copyPair source dest
  | setgp => exact confined_pop.bind fun _ => confined_registers.bind fun _ => confined_setRegisters _
  | call =>
    exact confined_registers.bind fun caller => (confined_peek 2).bind fun cell => (confined_load _).bind fun function =>
      (confined_push _).bind fun _ => (confined_load _).bind fun gp => (confined_push _).bind fun _ =>
      confined_stackSize.bind fun _ => (confined_getAt _).bind fun returns => (confined_setAt _ _).bind fun _ =>
      (confined_getAt _).bind fun formals => (confined_setAt _ _).bind fun _ => (confined_setRegisters _).bind fun _ =>
      (confined_load function).bind confined_jumpAddress
  | ret i =>
    exact confined_registers.bind fun callee => confined_pop.bind fun result =>
      confined_check_bind (arisesFrom_slot _) fun place _ =>
      confined_check_bind (arisesFrom_calleeSlot _) fun under _ => (confined_setAt _ _).bind fun _ =>
      (confined_truncate _).bind fun _ => confined_pop.bind fun fp => confined_pop.bind fun gp =>
      (confined_element _ i).bind fun back => confined_pop.bind fun returns => confined_pop.bind fun formals =>
      (confined_setRegisters _).bind fun _ => confined_jumpAddress back
  | slide n => exact confined_check_bind (arisesFrom_slot n) fun k _ => confined_slide k

/-- **Operations.** What a machine adds to the common instructions stays inside the code, and names one label at most. -/
theorem confined_exec {m : Machine} (image : Image m.Op) (op : m.Op) :
    Confined image (Operation.reference op) (Runnable.exec image op) :=
  match m with
  | .stack => Stack.confined_exec image op
  | .closure => Closure.confined_exec image op
  | .vector => Vector.confined_exec image op

/-! ## Steps and runs -/

/-- the states that a run from `s` goes through; it halts where the code ends -/
inductive Image.Visits {ι ρ : Type} [Runnable ι ρ] (image : Image ι) (s : State ρ) : State ρ → Prop
  | refl : Visits image s s
  | step {t u : State ρ} : Visits image s t → t.pc ≠ image.stop → image.step t = .ok () u → Visits image s u

section
variable {m : Machine} {image : Image m.Op}

theorem Instr.confined_exec (hb : image.Bounded) (i : Instr m.Op) :
    Confined image i.references (i.exec image) := by
  cases i with
  | loadc value =>
    cases value with
    | int n => exact confined_push n
    | addr l => exact confined_check_bind (arisesFrom_addressOf l) fun _ _ => confined_push _
  | pop => exact confined_pop.bind fun _ => confined_pure _
  | dup => exact confined_top.bind confined_push
  | swap =>
    exact confined_pop.bind fun upper => confined_pop.bind fun lower => (confined_push _).bind fun _ =>
      confined_push lower
  | dec => exact confined_top.bind fun _ => confined_poke 0 _
  | unary op => exact confined_pop.bind fun _ => confined_push _
  | binary op =>
    refine confined_pop.bind fun w => confined_pop.bind fun v => confined_check_bind (fun e he => ?_) fun _ _ =>
      confined_push _
    cases op <;> try cases he
    rcases quotient_error he with rfl | rfl <;> trivial
  | label l => exact confined_pure ()
  | jump l => exact confined_goto hb l
  | jumpz l =>
    refine confined_pop.bind fun w => ?_
    split
    · exact confined_goto hb l
    · exact confined_pure ()
  | own op => exact ThreeMachines.confined_exec image op

namespace Image

theorem step_of_some {s : State m.Registers} {i : Instr m.Op} (h : image.instrs[s.pc]? = some i) :
    image.step s = i.exec image { s with pc := s.pc + 1, stack := ⟨s.stack.words, s.pc⟩ } := by
  simp only [step, bind_apply, next, onStack, OperandStack.running, h]
  rfl

theorem step_of_none {s : State m.Registers} (h : image.instrs[s.pc]? = none) :
    image.step s = .error (.badAddress s.pc .instruction) { s with stack := ⟨s.stack.words, s.pc⟩ } := by
  simp only [step, bind_apply, next, onStack, OperandStack.running, h]
  rfl

/-- the end of the code leaves nothing to want but the word itself -/
theorem result_error {s : State m.Registers} {e : Fault} (h : result s = .error e) : ∃ pc, e = .stackUnderflow pc := by
  rw [result] at h
  split at h
  · cases h
  · next hpop =>
    cases h
    exact underflows_pop _ _ _ hpop

/-- a step ends inside the code -/
theorem step_inside (hb : image.Bounded) {s t : State m.Registers} (h : image.step s = .ok () t) :
    t.pc ≤ image.stop := by
  cases hi : image.instrs[s.pc]? with
  | none =>
    rw [step_of_none hi] at h
    cases h
  | some i =>
    rw [step_of_some hi] at h
    exact (i.confined_exec hb).inside h (Array.getElem?_eq_some_iff.1 hi).1

/-- a step fails since the machine has left the code, or as the instruction may that it has fetched -/
theorem step_error (hb : image.Bounded) {s t : State m.Registers} {e : Fault} (h : image.step s = .error e t) :
    image.instrs[s.pc]? = none ∧ e = .badAddress s.pc .instruction ∨
    ∃ i, image.instrs[s.pc]? = some i ∧ e.ArisesFrom image i.references := by
  cases hi : image.instrs[s.pc]? with
  | none =>
    rw [step_of_none hi] at h
    cases h
    exact .inl ⟨rfl, rfl⟩
  | some i =>
    rw [step_of_some hi] at h
    exact .inr ⟨i, rfl, (i.confined_exec hb).faults h⟩

/-- **Runs** stay inside the code. -/
theorem pc_le_of_visits (hb : image.Bounded) {s t : State m.Registers} (hs : s.pc ≤ image.stop)
    (h : image.Visits s t) : t.pc ≤ image.stop := by
  induction h with
  | refl => exact hs
  | step _ _ hstep _ => exact step_inside hb hstep

theorem Visits.cons {s t u : State m.Registers} (hpc : s.pc ≠ image.stop) (hst : image.step s = .ok () t)
    (h : image.Visits t u) : image.Visits s u := by
  induction h with
  | refl => exact .step .refl hpc hst
  | step _ hne hstep ih => exact .step ih hne hstep

/-- a run that fails is cut off, finds no word at the end of the code, or fails in a step -/
theorem run_error {limit left : Nat} {s : State m.Registers} {e : Fault} (h : image.run limit left s = .error e) :
    e = .stepLimit limit ∨ (∃ pc, e = .stackUnderflow pc) ∨
    ∃ t u, image.Visits s t ∧ t.pc ≠ image.stop ∧ image.step t = .error e u := by
  induction left generalizing s with
  | zero =>
    rw [run] at h
    split_ifs at h
    · exact .inr (.inl (result_error h))
    · cases h
      exact .inl rfl
  | succ left ih =>
    rw [run] at h
    split_ifs at h with hpc
    · exact .inr (.inl (result_error h))
    · cases hstep : image.step s with
      | ok _ t =>
        rw [hstep] at h
        rcases ih h with hlimit | hunder | ⟨u, v, hvisits, hu⟩
        · exact .inl hlimit
        · exact .inr (.inl hunder)
        · exact .inr (.inr ⟨u, v, hvisits.cons hpc hstep, hu⟩)
      | error e' t =>
        rw [hstep] at h
        cases h
        exact .inr (.inr ⟨s, t, .refl, hpc, hstep⟩)

end Image

namespace Program

/-- a run begins with the entry stream -/
theorem pc_start (p : Program m.Op) : (Runnable.start p).pc = (Image.ofProgram p).entry := by
  cases m <;> rfl

/-- **Inside.** A run of a program never passes the end of the code. -/
theorem pc_le_of_visits {p : Program m.Op} {s : State m.Registers}
    (h : (Image.ofProgram p).Visits (Runnable.start p) s) : s.pc ≤ (Image.ofProgram p).stop := by
  refine Image.pc_le_of_visits (Image.bounded_ofProgram p) ?_ h
  rw [pc_start]
  exact Image.entry_le_stop p

/-- **Faults.** A program that fails is cut off, leaves no word, or fails as one of its instructions may. -/
theorem simulate_error {p : Program m.Op} {limit : Nat} {e : Fault} (h : p.simulate limit = .error e) :
    e = .stepLimit limit ∨ (∃ pc, e = .stackUnderflow pc) ∨
    ∃ (pc : Nat) (i : Instr m.Op), (Image.ofProgram p).instrs[pc]? = some i ∧
      e.ArisesFrom (Image.ofProgram p) i.references := by
  rcases Image.run_error h with hlimit | hunder | ⟨s, t, hvisits, hpc, hstep⟩
  · exact .inl hlimit
  · exact .inr (.inl hunder)
  · rcases Image.step_error (Image.bounded_ofProgram p) hstep with ⟨hnone, -⟩ | ⟨i, hi, he⟩
    · have hle := Array.getElem?_eq_none_iff.1 hnone
      exact absurd (le_antisymm (pc_le_of_visits hvisits) hle) hpc
    · exact .inr (.inr ⟨s.pc, i, hi, he⟩)

end Program
end

end ThreeMachines
