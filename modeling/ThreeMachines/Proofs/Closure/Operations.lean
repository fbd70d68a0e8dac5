/-
What the operations of the closure machine do to the memory: one lemma for each of them.
-/
import ThreeMachines.Proofs.Blocks
import ThreeMachines.Closure.Run

namespace ThreeMachines.Closure

open Heap (address)

variable {image : Image Op} {m : Memory Registers} {pc q p i : Nat} {a b n : Int}

theorem stackOffset_natCast (i : Nat) : stackOffset i = .ok i := by
  rw [stackOffset, if_pos (Int.natCast_nonneg i), Int.toNat_natCast]

/-! ## Variables -/

theorem moves_pushloc (h : image.instrs[pc]? = some (.own (.pushloc n))) (hi : (i : Int) + n + 1 = m.words.size)
    (ha : m.words[i]? = some a) : image.Moves ⟨pc, m⟩ ⟨pc + 1, m.push a⟩ := by
  refine Image.moves_own h fun r => ?_
  have hlt := (Array.getElem?_eq_some_iff.1 ha).1
  obtain ⟨d, rfl⟩ := Int.eq_ofNat_of_zero_le (show 0 ≤ n by omega)
  simp only [Runnable.exec, exec, bind_apply, stackOffset_natCast, Exec.check_ok,
    Exec.peek_at (show d + i + 1 = m.words.size by omega) ha, Exec.push_at]

theorem moves_storeloc (h : image.instrs[pc]? = some (.own (.storeloc n))) (hi : (i : Int) + n = m.words.size)
    (hlt : i < m.words.size) : image.Moves ⟨pc, m.push a⟩ ⟨pc + 1, (m.write i a).push a⟩ := by
  refine Image.moves_own h fun r => ?_
  obtain ⟨d, rfl⟩ := Int.eq_ofNat_of_zero_le (show 0 ≤ n by omega)
  simp only [Runnable.exec, exec, bind_apply, stackOffset_natCast, Exec.check_ok, Exec.top_at]
  rw [Exec.poke_at (i := i) (by simp; omega) (by simp; omega)]
  simp only [Memory.push, Memory.set_push a a hlt]
  rfl

theorem moves_pushglob {g j : Nat} (h : image.instrs[pc]? = some (.own (.pushglob n))) (hgp : m.regs.gp = address g)
    (hj : n = j) (ha : m.heap.words[g + 1 + j]? = some a) : image.Moves ⟨pc, m⟩ ⟨pc + 1, m.push a⟩ := by
  refine Image.moves_own h fun r => ?_
  simp only [Runnable.exec, exec, bind_apply, Exec.registers_at, hgp, Exec.element_at hj ha, Exec.push_at]

theorem moves_load (h : image.instrs[pc]? = some (.own .load)) (ha : m.heap.words[q]? = some a) :
    image.Moves ⟨pc, m.push (address q)⟩ ⟨pc + 1, m.push a⟩ := by
  refine Image.moves_own h fun r => ?_
  simp only [Runnable.exec, exec, bind_apply, Exec.pop_at, Exec.load_at ha, Exec.push_at]

theorem moves_store (h : image.instrs[pc]? = some (.own .store)) (hq : q < m.heap.words.size) :
    image.Moves ⟨pc, (m.push a).push (address q)⟩ ⟨pc + 1, (m.onHeap (m.heap.set q a)).push a⟩ := by
  refine Image.moves_own h fun r => ?_
  simp only [Runnable.exec, exec, bind_apply, Exec.pop_at, Exec.top_at]
  rw [Exec.store_at (m := m.push a) hq]
  rfl

/-! ## Blocks -/

/-- the addresses of blocks of two words, one after the other from word `q` on -/
def pairs (q count : Nat) : List Int := (List.range count).map fun j => address (q + 2 * j)

theorem pairs_succ (q count : Nat) : pairs q (count + 1) = address q :: pairs (q + 2) count := by
  rw [pairs, List.range_succ_eq_map, List.map_cons, List.map_map, pairs]
  refine congrArg (address q :: ·) (List.map_congr_left fun j _ => ?_)
  rw [Function.comp_apply, Nat.mul_succ, Nat.add_comm (2 * j), Nat.add_assoc]

@[simp] theorem length_pairs (q count : Nat) : (pairs q count).length = count := by simp [pairs]

theorem getElem?_pairs {count j : Nat} (q : Nat) (h : j < count) : (pairs q count)[j]? = some (address (q + 2 * j)) := by
  simp [pairs, h]

theorem pushBlocks_at (m : Memory Registers) (count : Nat) {r : Nat} :
    pushBlocks count (m.at_ pc r) = .ok () (((m.onHeap (m.heap.append (List.replicate (2 * count) 0))).pushes
      (pairs m.heap.words.size count)).at_ pc r) := by
  induction count generalizing m with
  | zero =>
    rw [Nat.mul_zero, List.replicate_zero, Heap.append_nil]
    rfl
  | succ count ih =>
    simp only [pushBlocks, bind_apply, Exec.alloc_at, Exec.push_at]
    rw [ih, pairs_succ]
    simp only [Memory.push_heap, Memory.onHeap_heap, Memory.onHeap_push, Memory.onHeap_onHeap, Heap.append_append,
      Heap.size_append, List.length_replicate, List.replicate_append_replicate, Memory.pushes_cons]
    rw [Nat.mul_succ, Nat.add_comm (2 * count)]

theorem moves_alloc {count : Nat} (h : image.instrs[pc]? = some (.own (.alloc count))) :
    image.Moves ⟨pc, m⟩ ⟨pc + 1, (m.onHeap (m.heap.append (List.replicate (2 * count) 0))).pushes
      (pairs m.heap.words.size count)⟩ := by
  refine Image.moves_own h fun r => ?_
  simp only [Runnable.exec, exec, Int.toNat_natCast, pushBlocks_at]

theorem moves_refill (h : image.instrs[pc]? = some (.own (.refill n))) (hi : (i : Int) + n = m.words.size)
    (hp : m.words[i]? = some (address p)) (ha : m.heap.words[q]? = some a) (hb : m.heap.words[q + 1]? = some b)
    (hsize : p + 1 < m.heap.words.size) (hne : p ≠ q + 1) :
    image.Moves ⟨pc, m.push (address q)⟩ ⟨pc + 1, m.onHeap ((m.heap.set p a).set (p + 1) b)⟩ := by
  refine Image.moves_own h fun r => ?_
  have hlt := (Array.getElem?_eq_some_iff.1 hp).1
  obtain ⟨d, hd⟩ := Int.eq_ofNat_of_zero_le (show 0 ≤ n - 1 by omega)
  simp only [Runnable.exec, exec, bind_apply, Exec.pop_at, hd, stackOffset_natCast, Exec.check_ok,
    Exec.peek_at (show d + i + 1 = m.words.size by omega) hp]
  exact Exec.copyPair_at ha hb hsize hne

theorem moves_slide (as : List Int) (h : image.instrs[pc]? = some (.own (.slide as.length))) :
    image.Moves ⟨pc, (m.pushes as).push a⟩ ⟨pc + 1, m.push a⟩ := by
  refine Image.moves_own h fun r => ?_
  simp only [Runnable.exec, exec, bind_apply, stackOffset_natCast, Exec.check_ok, Exec.slide_pushes]

/-! ## Functions and calls -/

theorem moves_mkvec (as : List Int) (h : image.instrs[pc]? = some (.own (.mkvec as.length))) :
    image.Moves ⟨pc, m.pushes as⟩
      ⟨pc + 1, (m.onHeap (m.heap.append (as.length :: as))).push (address m.heap.words.size)⟩ := by
  refine Image.moves_own h fun r => ?_
  simp only [Runnable.exec, exec, bind_apply, Exec.makeVector_at, Exec.push_at]

theorem moves_mkfunval {label : Label} {entry : Nat} (h : image.instrs[pc]? = some (.own (.mkfunval label)))
    (ht : image.target label = .ok entry) :
    image.Moves ⟨pc, m.push a⟩
      ⟨pc + 1, (m.onHeap (m.heap.append [Image.base + entry, a])).push (address m.heap.words.size)⟩ := by
  refine Image.moves_own h fun r => ?_
  simp only [Runnable.exec, exec, bind_apply, Exec.makeFunction_at m a ht, Exec.push_at]

theorem moves_setgp (h : image.instrs[pc]? = some (.own .setgp)) :
    image.Moves ⟨pc, m.push a⟩ ⟨pc + 1, { m with regs := { m.regs with gp := a } }⟩ := by
  refine Image.moves_own h fun r => ?_
  simp only [Runnable.exec, exec, bind_apply, Exec.pop_at, Exec.registers_at, Exec.setRegisters_at]

/-- the memory with other registers -/
def withRegs (m : Memory Registers) (regs : Registers) : Memory Registers := { m with regs }

@[simp] theorem withRegs_words (m : Memory Registers) (regs : Registers) : (withRegs m regs).words = m.words := rfl

@[simp] theorem withRegs_regs (m : Memory Registers) (regs : Registers) : (withRegs m regs).regs = regs := rfl

theorem withRegs_pushes (m : Memory Registers) (as : List Int) (regs : Registers) :
    withRegs (m.pushes as) regs = (withRegs m regs).pushes as := by
  simp [withRegs, Memory.pushes_eq]

/-- the frame pointer after a mark over this memory -/
def framePointer (m : Memory Registers) : Int := (m.words.size + 2 : Nat)

theorem moves_mark {back : Label} {target : Nat} (h : image.instrs[pc]? = some (.own (.mark back)))
    (ht : image.target back = .ok target) :
    image.Moves ⟨pc, m⟩ ⟨pc + 1, (withRegs m ⟨m.regs.gp, framePointer m⟩).pushes
      [m.regs.gp, m.regs.fp, Image.base + target]⟩ := by
  refine Image.moves_own h fun r => ?_
  simp only [Runnable.exec, exec, bind_apply, Exec.registers_at, Exec.push_at, Image.addressOf_of_target ht,
    Exec.check_ok, Exec.stackSize_at, Exec.setRegisters_at, ← withRegs_pushes]
  congr 2
  simp [withRegs, Memory.push, framePointer]
  omega

theorem moves_apply {entry : Nat} (h : image.instrs[pc]? = some (.own (.apply n))) (hentry : entry < image.instrs.size)
    (hcode : m.heap.words[q]? = some (Image.base + entry)) (hgp : m.heap.words[q + 1]? = some a) :
    image.Moves ⟨pc, m.push (address q)⟩ ⟨entry, withRegs m ⟨a, m.regs.fp⟩⟩ := by
  refine Image.moves_own h fun r => ?_
  have hload : Exec.load (address q) ((withRegs m ⟨a, m.regs.fp⟩).at_ (pc + 1) r) =
      .ok (Image.base + entry) ((withRegs m ⟨a, m.regs.fp⟩).at_ (pc + 1) r) := Exec.load_at hcode
  rw [withRegs] at hload
  simp only [Runnable.exec, exec, bind_apply, Exec.pop_at, Heap.address_succ, Exec.load_at hgp, Exec.registers_at,
    Exec.setRegisters_at, hload, Image.pcOf_base hentry, Exec.check_ok, Exec.jumpTo_at]
  rfl

theorem moves_popenv {back : Nat} (gp fp : Int) (as : List Int) (h : image.instrs[pc]? = some (.own .popenv))
    (hback : back < image.instrs.size) (hfp : m.regs.fp = framePointer m) :
    image.Moves ⟨pc, ((m.pushes [gp, fp, Image.base + back]).pushes as).push a⟩
      ⟨back, (withRegs m ⟨gp, fp⟩).push a⟩ := by
  refine Image.moves_own h fun r => ?_
  have hframe : frame (framePointer m) = .ok (m.words.size + 2) := by
    rw [frame, framePointer, if_pos (by omega), Int.toNat_natCast]
  have htake : m.words.size + 2 - 2 = m.words.size + 0 := rfl
  have hprev : m.words.size + 2 - 1 = m.words.size + 1 := rfl
  simp only [Runnable.exec, exec, bind_apply, Exec.pop_at, Exec.registers_at, ← Memory.pushes_append, Memory.pushes_regs,
    hfp, hframe, Exec.check_ok, htake, hprev]
  rw [Exec.getAt_pushes (a := Image.base + back) m rfl]
  simp only []
  rw [Exec.getAt_pushes (a := fp) m rfl]
  simp only []
  rw [Exec.getAt_pushes (a := gp) m rfl]
  simp only [Exec.truncate_pushes, List.take_zero, Memory.pushes_nil, Exec.push_at, Exec.setRegisters_at,
    Image.pcOf_base hback, Exec.check_ok, Exec.jumpTo_at]
  rfl

end ThreeMachines.Closure
