/-
Native code of the closure machine does what the machine does.

rbx holds GP, and rbp the address of the place that the frame pointer names; the frame pointers that `mark` has saved are
such addresses too. An operation may touch the place of a saved frame pointer only where `popenv` takes one back
(`Op.Proper`).

- `leads_own`: each operation that succeeds is carried out by its code.
-/
import ThreeMachines.Closure.Native
import ThreeMachines.Proofs.Native.HeapOperations
import ThreeMachines.Proofs.Closure.Operations

namespace ThreeMachines.Closure

open Native Layout

/-- the machine's registers in the processor -/
structure Registers.Native (L : Layout) (regs : Registers) (native : Reg → Word) : Prop where
  rbx : native .rbx = word regs.gp
  rbp : native .rbp = L.frame regs.fp

theorem respects_registers : Respects Registers.Native :=
  fun _ _ _ _ hkeeps h => ⟨hkeeps.rbx.trans h.rbx, hkeeps.rbp.trans h.rbp⟩

/-- the places of the stack that an operation reads, writes or drops, of `n` words; not the saved frame pointer and what
lies between the frame and the result where `popenv` returns -/
def Op.Touches (n : Nat) (fp : Int) (j : Nat) : Op → Prop
  | .pushloc k => (j : Int) + k + 1 = n
  | .storeloc k | .refill k => j + 1 = n ∨ (j : Int) + k + 1 = n
  | .pushglob _ | .alloc _ | .mark _ => False
  | .load | .mkfunval _ | .apply _ | .setgp => j + 1 = n
  | .store => n ≤ j + 2
  | .mkvec k => n ≤ (j : Int) + k
  | .popenv => j + 1 = n ∨ (j : Int) = fp ∨ (j : Int) + 2 = fp
  | .slide k => n ≤ (j : Int) + k + 1

/-- saved frame pointers are touched only as such -/
def Op.Proper (saved : Finset Nat) (n : Nat) (fp : Int) (op : Op) : Prop :=
  (∀ j ∈ saved, ¬ op.Touches n fp j) ∧ (op = .popenv → ∃ j ∈ saved, (j : Int) + 1 = fp)

/-- the places of saved frame pointers after an operation -/
def Op.saves (saved : Finset Nat) (n : Nat) (fp : Int) : Op → Finset Nat
  | .mark _ => insert (n + 1) saved
  | .popenv => saved.filter fun j => (j : Int) + 2 < fp
  | _ => saved

section
variable {L : Layout} {env : Surroundings} {malloc : Cpu → Cpu} {saved : Finset Nat} {image : Image Op}
  {m : Memory Registers} {s : State Registers} {op : Op} {pc r : Nat} {p : Picture} {regs : Reg → Word}
  {flags : Option Flags} {stack heap : Array Word} {taken : Nat} {rest : Asm} {Q : Outcome → Prop}

theorem frame_ok {fp : Int} {place : Nat} (h : frame fp = .ok place) : fp = place ∧ 2 ≤ place := by
  by_cases hfp : 2 ≤ fp
  · rw [frame, if_pos hfp] at h
    cases h
    omega
  · rw [frame, if_neg hfp] at h
    cases h

theorem stackOffset_ok {k : Int} {d : Nat} (h : stackOffset k = .ok d) : k = d := by
  by_cases hk : 0 ≤ k
  · rw [stackOffset, if_pos hk] at h
    cases h
    omega
  · rw [stackOffset, if_neg hk] at h
    cases h

theorem pushBlocks_grows {count : Nat} (h : pushBlocks count (m.at_ pc r) = .ok () s) :
    s.pc = pc ∧ m.words.size ≤ s.stack.size ∧ m.heap.words.size ≤ s.heap.size := by
  rw [pushBlocks_at] at h
  cases h
  exact ⟨rfl, by simp [Memory.pushes_size, Memory.onHeap], by simp [Heap.size]⟩

theorem leads_pushZeroPairs {count : Nat} (himport : env.imports "malloc" = some malloc) (hmalloc : Allocates L malloc)
    (hp : Depicts Registers.Native L saved m p) (h : pushBlocks count (m.at_ pc r) = .ok () s) (hroom : Fits L s)
    (hrest : ∀ p', Depicts Registers.Native L saved ⟨s.stack.words, s.heap, s.regs⟩ p' → L.Leads env p' rest Q) :
    L.Leads env p (plain (pushZeroPairs count) ++ rest) Q := by
  induction count generalizing m p with
  | zero =>
    cases h
    exact hrest p hp
  | succ count ih =>
    obtain ⟨regs, flags, stack, heap, taken⟩ := p
    rw [pushBlocks] at h
    simp only [bind_apply, Exec.alloc_at, Exec.push_at] at h
    -- the blocks to come leave room for this one
    obtain ⟨-, hstack, hheap⟩ := pushBlocks_grows h
    have hslots : stack.size < L.slots := by
      rw [hp.size_stack]
      simpa [Memory.onHeap, Nat.succ_le_iff] using hstack.trans hroom.slots
    have hcells : heap.size + 2 ≤ L.words := by
      rw [hp.size_heap]
      simpa using hheap.trans hroom.cells
    simp only [pushZeroPairs, plain_append, List.append_assoc]
    refine leads_alloc himport hmalloc (n := 2) rfl hp.taken_eq hcells fun regs₁ flags₁ block hkeeps hrdx hblock => ?_
    obtain ⟨x, y, rfl⟩ := List.length_eq_two.1 hblock
    refine leads_storeBlock (i := 0) hrdx rfl (by simp) (gives_imm 0) (leads_storeBlock (i := 1) hrdx rfl (by simp)
      (gives_imm 0) (leads_push (gives_reg hrdx) hslots (ih ?_ h)))
    exact (hp.keeps respects_registers hkeeps).pushBlock [0, 0]

/-- an operation that touches the top word finds no saved frame pointer there -/
theorem Op.Proper.top_free {w : Int} (h : op.Proper saved (m.push w).words.size m.regs.fp)
    (htouches : op.Touches (m.words.size + 1) m.regs.fp m.words.size) : m.words.size ∉ saved := by
  intro hmem
  apply h.1 _ hmem
  rw [Memory.push_words, Array.size_push]
  exact htouches

/-! ## Operations

Each operation that succeeds is carried out by its code: one lemma for each of them, in the order of the constructors.
-/

section
variable (henv : Surrounds image pc env) (hp : Depicts Registers.Native L saved m p)
include henv hp

theorem lowers_pushloc {k : Int} (hproper : (Op.pushloc k).Proper saved m.words.size m.regs.fp)
    (h : exec image (.pushloc k) (m.at_ (pc + 1) r) = .ok () s) (hroom : Fits L s) :
    L.Leads env p (lower (.pushloc k)) (Arrives Registers.Native L saved s) := by
  obtain ⟨regs, flags, stack, heap, taken⟩ := p
  obtain ⟨d, hd, h₁⟩ := Exec.check_bind h
  obtain rfl := stackOffset_ok hd
  obtain ⟨i, w, hi, hw, h₂⟩ := Exec.peek_bind h₁
  rw [Exec.push_at] at h₂
  cases h₂
  have hplace : i + d + 1 = stack.size := by
    rw [hp.size_stack]
    omega
  have hfree : i ∉ saved := fun hmem => hproper.1 i hmem (by simp only [Op.Touches]; omega)
  refine leads_push (gives_mem (x := .slot i) (locate_onStack hplace) (hp.slot hw hfree)) ?_
    (leads_arrive henv (hp.push w))
  rw [hp.size_stack]
  exact hroom.slots_of_push

theorem lowers_storeloc {k : Int} (hproper : (Op.storeloc k).Proper saved m.words.size m.regs.fp)
    (h : exec image (.storeloc k) (m.at_ (pc + 1) r) = .ok () s) :
    L.Leads env p (lower (.storeloc k)) (Arrives Registers.Native L saved s) := by
  obtain ⟨regs, flags, stack, heap, taken⟩ := p
  obtain ⟨d, hd, h₁⟩ := Exec.check_bind h
  obtain rfl := stackOffset_ok hd
  obtain ⟨m', w, rfl, h₂⟩ := Exec.top_bind h₁
  obtain ⟨i, hi, rfl⟩ := Exec.poke_ok h₂
  have hsize : stack.size = m'.words.size + 1 := hp.size_stack.trans (by simp)
  have hplace : i + d + 1 = stack.size := by
    rw [hp.size_stack]
    omega
  have htop : m'.words.size ∉ saved := hproper.top_free (by simp [Op.Touches])
  have hfree : i ∉ saved := fun hmem => hproper.1 i hmem (by simp only [Op.Touches]; omega)
  refine leads_mov (by decide) (gives_mem (x := .slot m'.words.size) (w := word w) (locate_onStack (k := 0) ?_)
    (hp.slot (by simp) htop)) (leads_store (x := .slot i) (w := word w) (locate_onStack hplace) ?_ (gives_reg rfl)
    (leads_arrive henv ((hp.write hfree w).keeps respects_registers ⟨rfl, rfl, rfl, rfl, rfl⟩)))
  · omega
  · rw [Picture.at, Option.isSome_iff_exists]
    exact ⟨_, hp.slot (Array.getElem?_eq_getElem (by omega)) hfree⟩

theorem lowers_pushglob {i : Int} (h : exec image (.pushglob i) (m.at_ (pc + 1) r) = .ok () s) (hroom : Fits L s) :
    L.Leads env p (lower (.pushglob i)) (Arrives Registers.Native L saved s) :=
  leads_pushElement henv hp hp.regs.rbx h hroom

theorem lowers_load (hproper : Op.load.Proper saved m.words.size m.regs.fp)
    (h : exec image .load (m.at_ (pc + 1) r) = .ok () s) (hroom : Fits L s) :
    L.Leads env p (lower .load) (Arrives Registers.Native L saved s) := by
  obtain ⟨regs, flags, stack, heap, taken⟩ := p
  obtain ⟨m', a, rfl, h₁⟩ := Exec.pop_bind h
  obtain ⟨q, w, rfl, hw, h₂⟩ := Exec.load_bind h₁
  rw [Exec.push_at] at h₂
  cases h₂
  obtain ⟨stack, rfl, hp'⟩ := hp.pop (hproper.top_free (by simp [Op.Touches]))
  refine leads_pop (by decide) (leads_push (gives_mem (x := .cell q) (locate_cell rfl (Int.add_zero _)) (hp'.cell hw)) ?_
    (leads_arrive henv ((hp'.push w).keeps respects_registers ⟨rfl, rfl, rfl, rfl, rfl⟩)))
  rw [hp'.size_stack]
  exact hroom.slots_of_push

theorem lowers_store (hproper : Op.store.Proper saved m.words.size m.regs.fp)
    (h : exec image .store (m.at_ (pc + 1) r) = .ok () s) :
    L.Leads env p (lower .store) (Arrives Registers.Native L saved s) := by
  obtain ⟨regs, flags, stack, heap, taken⟩ := p
  obtain ⟨m₁, a, rfl, h₁⟩ := Exec.pop_bind h
  obtain ⟨m', w, rfl, h₂⟩ := Exec.top_bind h₁
  obtain ⟨q, rfl, hq, rfl⟩ := Exec.store_ok h₂
  obtain ⟨stack, rfl, hp'⟩ := hp.pop (hproper.top_free (by simp [Op.Touches]))
  have hnext : m'.words.size ∉ saved := fun hmem => hproper.1 _ hmem (by simp [Op.Touches])
  have hsize : stack.size = m'.words.size + 1 := hp'.size_stack.trans (by simp)
  refine leads_pop (by decide) (leads_mov (by decide) (gives_mem (x := .slot m'.words.size) (w := word w)
    (locate_onStack (k := 0) (by omega)) (hp'.slot (by simp) hnext)) (leads_store (x := .cell q) (w := word w)
    (locate_cell rfl (Int.add_zero _)) ?_ (gives_reg rfl)
    (leads_arrive henv ((hp'.set q w).keeps respects_registers ⟨rfl, rfl, rfl, rfl, rfl⟩))))
  rw [Picture.at, Option.isSome_iff_exists]
  exact ⟨_, hp'.cell (Array.getElem?_eq_getElem hq)⟩

theorem lowers_refill {k : Int} (hproper : (Op.refill k).Proper saved m.words.size m.regs.fp)
    (h : exec image (.refill k) (m.at_ (pc + 1) r) = .ok () s) :
    L.Leads env p (lower (.refill k)) (Arrives Registers.Native L saved s) := by
  obtain ⟨m', closure, rfl, h₁⟩ := Exec.pop_bind h
  obtain ⟨d, hd, h₂⟩ := Exec.check_bind h₁
  obtain ⟨i, cell, hi, hcell, h₃⟩ := Exec.peek_bind h₂
  have hk : k - 1 = d := stackOffset_ok hd
  have hfree : i ∉ saved := fun hmem => hproper.1 i hmem (by simp [Op.Touches]; omega)
  rw [lower, hk]
  exact leads_copyOver respects_registers henv hp (hproper.top_free (by simp [Op.Touches])) hfree hi hcell h₃

theorem lowers_mark {back : Label} (h : exec image (.mark back) (m.at_ (pc + 1) r) = .ok () s) (hroom : Fits L s) :
    L.Leads env p (lower (.mark back))
      (Arrives Registers.Native L ((Op.mark back).saves saved m.words.size m.regs.fp) s) := by
  obtain ⟨regs, flags, stack, heap, taken⟩ := p
  simp only [exec, bind_apply, Exec.registers_at, Exec.push_at] at h
  obtain ⟨a, ha, h₁⟩ := Exec.check_bind h
  obtain ⟨target, hback, rfl⟩ := Image.addressOf_ok ha
  simp only [Exec.push_at, Exec.stackSize_at, Exec.setRegisters_at] at h₁
  cases h₁
  have hslots : stack.size + 2 < L.slots := by
    rw [hp.size_stack]
    simpa [Nat.succ_le_iff] using hroom.slots
  have hp' := ((hp.push m.regs.gp).push_saved m.regs.fp).push (Image.base + target)
  rw [Memory.push_words, Array.size_push] at hp'
  refine leads_push (gives_reg hp.regs.rbx) (by omega) (leads_push (gives_reg hp.regs.rbp) (by simp; omega)
    (leads_leaLabel (by decide) (henv.labels back target hback) (leads_push (w := word (Image.base + target))
    (gives_reg rfl) (by simp; omega) (leads_mov (by decide) (gives_reg rfl)
    (leads_arrive henv ?_)))))
  refine hp'.withRegs ⟨hp.regs.rbx, congrArg L.under ?_⟩
  simp [hp.size_stack]

theorem lowers_slide {n : Int} (hproper : (Op.slide n).Proper saved m.words.size m.regs.fp)
    (h : exec image (.slide n) (m.at_ (pc + 1) r) = .ok () s) (hroom : Fits L s) :
    L.Leads env p (lower (.slide n)) (Arrives Registers.Native L saved s) := by
  obtain ⟨d, hd, h₁⟩ := Exec.check_bind h
  obtain rfl := stackOffset_ok hd
  have hfree : ∀ j ∈ saved, j + d + 1 < m.words.size := by
    intro j hj
    have := hproper.1 j hj
    simp only [Op.Touches] at this
    omega
  exact leads_slideWords respects_registers henv hp hfree h₁ hroom

theorem lowers_setgp (hproper : Op.setgp.Proper saved m.words.size m.regs.fp)
    (h : exec image .setgp (m.at_ (pc + 1) r) = .ok () s) :
    L.Leads env p (lower .setgp) (Arrives Registers.Native L saved s) := by
  obtain ⟨regs, flags, stack, heap, taken⟩ := p
  obtain ⟨m', a, rfl, h₁⟩ := Exec.pop_bind h
  simp only [bind_apply, Exec.registers_at, Exec.setRegisters_at] at h₁
  cases h₁
  obtain ⟨stack, rfl, hp'⟩ := hp.pop (hproper.top_free (by simp [Op.Touches]))
  exact leads_pop (by decide) (leads_arrive henv (hp'.withRegs ⟨rfl, hp.regs.rbp⟩))

end

/-! ### Calls and returns -/

theorem lowers_apply {n : Int} (hp : Depicts Registers.Native L saved m p)
    (hproper : (Op.apply n).Proper saved m.words.size m.regs.fp)
    (h : exec image (.apply n) (m.at_ (pc + 1) r) = .ok () s) :
    L.Leads env p (lower (.apply n)) (Arrives Registers.Native L saved s) := by
  obtain ⟨regs, flags, stack, heap, taken⟩ := p
  obtain ⟨m', a, rfl, h₁⟩ := Exec.pop_bind h
  obtain ⟨q, gp, hq, hgp, h₂⟩ := Exec.load_bind h₁
  simp only [bind_apply, Exec.registers_at, Exec.setRegisters_at] at h₂
  obtain ⟨q', code, rfl, hcode, h₃⟩ := Exec.load_bind h₂
  obtain ⟨target, htarget, h₄⟩ := Exec.check_bind h₃
  obtain rfl := Image.pcOf_ok htarget
  rw [Exec.jumpTo_at] at h₄
  cases h₄
  obtain ⟨stack, rfl, hp'⟩ := hp.pop (hproper.top_free (by simp [Op.Touches]))
  exact leads_pop (by decide) (leads_mov (by decide) (gives_mem (x := .cell q) (locate_cell rfl hq) (hp'.cell hgp))
    (leads_jmpMem (x := .cell q') (locate_cell rfl (Int.add_zero _)) (hp'.cell hcode)
    (hp'.withRegs ⟨rfl, hp.regs.rbp⟩)))

/-- what a `popenv` that succeeds has found: from word `low` on, the caller's GP and frame pointer and the return
address -/
theorem popenv_ok (h : exec image .popenv (m.at_ (pc + 1) r) = .ok () s) :
    ∃ (m' : Memory Registers) (result gp fp : Int) (low target : Nat), m = m'.push result ∧ m'.regs.fp = low + 2 ∧
      m'.words[low]? = some gp ∧ m'.words[low + 1]? = some fp ∧ m'.words[low + 2]? = some (Image.base + target) ∧
      s = Memory.at_ ⟨(m'.words.take low).push result, m'.heap, ⟨gp, fp⟩⟩ target r := by
  obtain ⟨m', result, rfl, h₁⟩ := Exec.pop_bind h
  simp only [bind_apply, Exec.registers_at] at h₁
  obtain ⟨place, hplace, h₂⟩ := Exec.check_bind h₁
  obtain ⟨hfp, hle⟩ := frame_ok hplace
  obtain ⟨low, rfl⟩ := Nat.exists_eq_add_of_le' hle
  obtain ⟨back, hback, h₃⟩ := Exec.getAt_bind h₂
  obtain ⟨fp, hfp', h₄⟩ := Exec.getAt_bind h₃
  obtain ⟨gp, hgp, h₅⟩ := Exec.getAt_bind h₄
  simp only [Exec.truncate_at, Exec.push_at, Exec.setRegisters_at] at h₅
  obtain ⟨target, htarget, h₆⟩ := Exec.check_bind h₅
  obtain rfl := Image.pcOf_ok htarget
  rw [Exec.jumpTo_at] at h₆
  cases h₆
  exact ⟨m', result, gp, fp, low, target, rfl, by rw [hfp]; push_cast; rfl, hgp, hfp', hback, rfl⟩

theorem lowers_popenv (hp : Depicts Registers.Native L saved m p)
    (hproper : Op.popenv.Proper saved m.words.size m.regs.fp) (h : exec image .popenv (m.at_ (pc + 1) r) = .ok () s) :
    L.Leads env p (lower .popenv)
      (Arrives Registers.Native L (Op.popenv.saves saved m.words.size m.regs.fp) s) := by
  obtain ⟨regs, flags, stack, heap, taken⟩ := p
  obtain ⟨m', result, gp, fp, low, target, rfl, hfp, hgp, hframe, hback, rfl⟩ := popenv_ok h
  obtain ⟨stack, rfl, hp'⟩ := hp.pop (hproper.top_free (by simp [Op.Touches]))
  have hlt : low + 2 < stack.size := by
    rw [hp'.size_stack]
    exact (Array.getElem?_eq_some_iff.1 hback).1
  -- of the three words, the middle one is a saved frame pointer
  have hlow : low ∉ saved := fun hmem => hproper.1 _ hmem (by simp [Op.Touches, hfp])
  have hhigh : low + 2 ∉ saved := fun hmem => hproper.1 _ hmem (by simp [Op.Touches, hfp])
  have hmid : low + 1 ∈ saved := by
    obtain ⟨j, hj, hjfp⟩ := hproper.2 rfl
    obtain rfl : j = low + 1 := by
      simp only [Memory.push_regs] at hjfp
      omega
    exact hj
  -- rbp is the address of the uppermost of them
  have hrbp : regs .rbp = L.under (8 * ((low : Int) + 3)) := by
    refine hp'.regs.rbp.trans (congrArg L.under ?_)
    rw [hfp]
    ring
  have hsaves : Op.popenv.saves saved (m'.push result).words.size m'.regs.fp = saved.filter (· < low) := by
    refine Finset.filter_congr fun j _ => ?_
    rw [hfp]
    omega
  have htake : (stack.setIfInBounds low (word result)).take (low + 1) = (stack.take low).push (word result) :=
    take_setIfInBounds (by omega) _
  have hafter := (hp'.take (n := low) (by rw [← hp'.size_stack]; omega)).push result
  rw [← htake, ← hsaves] at hafter
  refine leads_pop (by decide) (leads_mov (by decide) (gives_mem (x := .slot low) (locate_under hrbp (by ring))
    (hp'.slot hgp hlow)) (leads_store (x := .slot low) (w := word result) (locate_under hrbp (by ring)) ?_
    (gives_reg rfl) (leads_leave (n := low + 1) (x := .slot (low + 2)) (y := .slot (low + 1)) (v := word _)
    (w := L.frame fp) ?_ ?_ (locate_under hrbp (by push_cast; ring)) (locate_under hrbp (by push_cast; ring)) ?_ ?_
    (by decide) (by decide) (by decide) (by decide) (by decide) (leads_jmpReg rfl (hafter.withRegs ⟨rfl, rfl⟩)))))
  · rw [Picture.at, Option.isSome_iff_exists]
    exact ⟨_, hp'.slot hgp hlow⟩
  · simp
    omega
  · refine Eq.trans (locate_under (j := low) hrbp (by ring)) (congrArg L.under ?_)
    push_cast
    ring
  · rw [Picture.at, Array.getElem?_setIfInBounds_ne (by omega)]
    exact hp'.slot hback hhigh
  · rw [Picture.at, Array.getElem?_setIfInBounds_ne (by omega)]
    exact hp'.slot_saved hframe hmid

/-- **Operations.** The code of an operation that succeeds does what the operation does. -/
theorem leads_own (himport : env.imports "malloc" = some malloc) (hmalloc : Allocates L malloc)
    (henv : Surrounds image pc env) (hp : Depicts Registers.Native L saved m p)
    (hproper : op.Proper saved m.words.size m.regs.fp) (h : exec image op (m.at_ (pc + 1) r) = .ok () s)
    (hroom : Fits L s) :
    L.Leads env p (lower op) (Arrives Registers.Native L (op.saves saved m.words.size m.regs.fp) s) := by
  cases op with
  | pushloc k => exact lowers_pushloc henv hp hproper h hroom
  | storeloc k => exact lowers_storeloc henv hp hproper h
  | pushglob i => exact lowers_pushglob henv hp h hroom
  | load => exact lowers_load henv hp hproper h hroom
  | store => exact lowers_store henv hp hproper h
  | alloc n =>
    obtain ⟨hpc, -, -⟩ := pushBlocks_grows h
    rw [lower, ← List.append_nil (plain _), Arrives, hpc]
    exact leads_pushZeroPairs himport hmalloc hp h hroom fun p' hp' => leads_done henv hp'
  | refill k => exact lowers_refill henv hp hproper h
  | mkvec n =>
    refine leads_makeVector respects_registers himport hmalloc henv hp (fun j hj => ?_) h hroom
    have := hproper.1 j hj
    simp only [Op.Touches] at this
    omega
  | mkfunval body => exact leads_makeFunction respects_registers himport hmalloc henv hp hproper.1 h hroom
  | mark back => exact lowers_mark henv hp h hroom
  | apply n => exact lowers_apply hp hproper h
  | popenv => exact lowers_popenv hp hproper h
  | slide n => exact lowers_slide henv hp hproper h hroom
  | setgp => exact lowers_setgp henv hp hproper h

end

/-! ## Faults -/

theorem quiet_frame (fp : Int) : Exec.Quiet (Exec.check (frame fp) : Exec Registers Nat) := by
  refine Exec.Names.quiet fun e h => ?_
  rw [frame] at h
  split_ifs at h
  cases h
  exact Exec.badAddress_quiet _ _

theorem quiet_pushBlocks (count : Nat) : Exec.Quiet (pushBlocks count) := by
  induction count with
  | zero => exact Exec.quiet_pure ()
  | succ count ih => exact (Exec.quiet_alloc 2).bind fun _ => (Exec.quiet_push _).bind fun _ => ih

theorem quiet_exec (image : Image Op) (op : Op) : Exec.Quiet (exec image op) := by
  cases op with
  | pushloc k => exact (Exec.quiet_stackOffset k).bind fun d => (Exec.quiet_peek d).bind Exec.quiet_push
  | storeloc k => exact (Exec.quiet_stackOffset k).bind fun d => Exec.quiet_top.bind (Exec.quiet_poke d)
  | pushglob i => exact Exec.quiet_registers.bind fun _ => (Exec.quiet_element _ i).bind Exec.quiet_push
  | load => exact Exec.quiet_pop.bind fun a => (Exec.quiet_load a).bind Exec.quiet_push
  | store => exact Exec.quiet_pop.bind fun a => Exec.quiet_top.bind (Exec.quiet_store a)
  | alloc n => exact quiet_pushBlocks _
  | refill k =>
    exact Exec.quiet_pop.bind fun _ => (Exec.quiet_stackOffset _).bind fun d => (Exec.quiet_peek d).bind
      (Exec.quiet_copyPair _)
  | mkvec n => exact (Exec.quiet_makeVector n).bind Exec.quiet_push
  | mkfunval body => exact (Exec.quiet_makeFunction image body).bind Exec.quiet_push
  | mark back =>
    exact Exec.quiet_registers.bind fun _ => (Exec.quiet_push _).bind fun _ => (Exec.quiet_push _).bind fun _ =>
      (Exec.quiet_addressOf image back).bind fun a => (Exec.quiet_push a).bind fun _ => Exec.quiet_stackSize.bind fun _ =>
      Exec.quiet_setRegisters _
  | apply n =>
    exact Exec.quiet_pop.bind fun _ => (Exec.quiet_load _).bind fun _ => Exec.quiet_registers.bind fun _ =>
      (Exec.quiet_setRegisters _).bind fun _ => (Exec.quiet_load _).bind fun code => (Exec.quiet_pcOf image code).bind
      Exec.quiet_jumpTo
  | popenv =>
    exact Exec.quiet_pop.bind fun _ => Exec.quiet_registers.bind fun _ => (quiet_frame _).bind fun _ =>
      (Exec.quiet_getAt _).bind fun back => (Exec.quiet_getAt _).bind fun _ => (Exec.quiet_getAt _).bind fun _ =>
      (Exec.quiet_truncate _).bind fun _ => (Exec.quiet_push _).bind fun _ => (Exec.quiet_setRegisters _).bind fun _ =>
      (Exec.quiet_pcOf image back).bind Exec.quiet_jumpTo
  | slide n => exact (Exec.quiet_stackOffset n).bind Exec.quiet_slide
  | setgp => exact Exec.quiet_pop.bind fun _ => Exec.quiet_registers.bind fun _ => Exec.quiet_setRegisters _

end ThreeMachines.Closure
