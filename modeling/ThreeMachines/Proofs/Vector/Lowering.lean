/-
Native code of the vector machine does what the machine does.

r12, r13 and r14 hold the vectors of the running function, and rbp the address of the place that the frame pointer names;
the frame pointers that `call` has saved are such addresses too. An operation may touch the place of a saved frame pointer
only where `return` takes one back. `getbasic` reads through the payload of every cell, and `copy` must not be given the
address of the block that it is about to allocate (`Op.Proper`).

- `leads_own`: each operation that succeeds is carried out by its code.
-/
import ThreeMachines.Vector.Native
import ThreeMachines.Proofs.Native.HeapOperations
import ThreeMachines.Proofs.Vector.Operations

namespace ThreeMachines.Vector

open Native Native.Layout

/-- the machine's registers in the processor -/
structure Registers.Native (L : Native.Layout) (regs : Registers) (native : Reg → Word) : Prop where
  r12 : native .r12 = word regs.gp
  r13 : native .r13 = word regs.formals
  r14 : native .r14 = word regs.returns
  rbp : native .rbp = L.frame regs.fp

theorem respects_registers : Respects Registers.Native := fun _ _ _ _ hkeeps h =>
  ⟨hkeeps.r12.trans h.r12, hkeeps.r13.trans h.r13, hkeeps.r14.trans h.r14, hkeeps.rbp.trans h.rbp⟩

/-- the places of the stack that an operation reads, writes or drops, of `n` words; not the saved frame pointer and what
lies beside it where `return` leaves the frame -/
def Op.Touches (n : Nat) (fp : Int) (j : Nat) : Op → Prop
  | .mkbasic | .getbasic | .mkind _ | .copy | .mkfunval _ | .setgp => j + 1 = n
  | .mkvec k => n ≤ (j : Int) + k
  | .pushloc a => (j : Int) = fp + a
  | .pushglob _ | .pushform _ | .alloc _ => False
  | .store => n ≤ j + 2
  | .call => n ≤ j + 3
  | .ret _ => j + 1 = n ∨ (j : Int) + 1 = fp ∨ (j : Int) + 2 = fp ∨ (j : Int) + 3 = fp
  | .slide k => n ≤ (j : Int) + k + 1

/-- saved frame pointers are touched only as such, `return` finds its result above the frame, `getbasic` a cell whose
payload is a heap address, and `copy` a cell that is not the block to come -/
structure Op.Proper (saved : Finset Nat) (m : Memory Registers) (op : Op) : Prop where
  free : ∀ j ∈ saved, ¬ op.Touches m.words.size m.regs.fp j
  ret : ∀ i, op = .ret i → (∃ j ∈ saved, (j : Int) = m.regs.fp) ∧ m.regs.fp + 1 < m.words.size
  getbasic : op = .getbasic → ∀ q payload, m.words.back? = some (Heap.address q) → m.heap.words[q]? = some payload →
    ∃ j < m.heap.words.size, payload = Heap.address j
  copy : op = .copy → m.words.back? ≠ some (Heap.address m.heap.words.size)

/-- the places of saved frame pointers after an operation -/
def Op.saves (saved : Finset Nat) (n : Nat) (fp : Int) : Op → Finset Nat
  | .call => insert (n + 1) saved
  | .ret _ => saved.filter fun j => (j : Int) + 4 < fp
  | _ => saved

section
variable {L : Native.Layout} {env : Surroundings} {malloc : Cpu → Cpu} {saved : Finset Nat} {image : Image Op}
  {m : Memory Registers} {s : State Registers} {op : Op} {pc r : Nat} {p : Picture} {regs : Reg → Word}
  {flags : Option Flags} {stack heap : Array Word} {taken : Nat} {rest : Asm} {Q : Outcome → Prop}

theorem slot_ok {a : Int} {i : Nat} (h : slot a = .ok i) : a = i := by
  by_cases ha : 0 ≤ a
  · rw [slot, if_pos ha] at h
    cases h
    omega
  · rw [slot, if_neg ha] at h
    cases h

theorem calleeSlot_ok {fp : Int} {i : Nat} (h : calleeSlot fp = .ok i) : fp = i + 4 := by
  by_cases hfp : 4 ≤ fp
  · rw [calleeSlot, if_pos hfp] at h
    cases h
    omega
  · rw [calleeSlot, if_neg hfp] at h
    cases h

/-- a payload comes into a new cell -/
theorem leads_pushCell {tag : Tag} {payload : Word} (himport : env.imports "malloc" = some malloc)
    (hmalloc : Allocates L malloc) (htaken : taken = heap.size) (hroom : heap.size + 2 ≤ L.words)
    (hslots : stack.size < L.slots)
    (hrest : ∀ regs' flags', Keeps regs regs' → L.Leads env ⟨regs', flags', stack.push (word (Heap.address heap.size)),
      heap ++ [payload, word tag.word].toArray, taken + 2⟩ rest Q) :
    L.Leads env ⟨regs, flags, stack.push payload, heap, taken⟩ (plain (pushCell tag) ++ rest) Q := by
  simp only [pushCell, plain_append, List.append_assoc]
  refine leads_alloc himport hmalloc (n := 2) rfl htaken hroom fun regs₁ flags₁ block hkeeps hrdx hblock => ?_
  obtain ⟨x, y, rfl⟩ := List.length_eq_two.1 hblock
  refine leads_pop (by decide) (leads_storeBlock (w := payload) (i := 0) hrdx rfl (by simp) (gives_reg rfl)
    (leads_storeBlock (i := 1) hrdx rfl (by simp) (gives_char _) (leads_push (gives_reg hrdx) hslots (hrest _ _ ?_))))
  exact ⟨hkeeps.rbx, hkeeps.rbp, hkeeps.r12, hkeeps.r13, hkeeps.r14⟩

@[simp] theorem withCell_size (m : Memory Registers) : (withCell m).words.size = m.words.size + 1 := by
  simp [withCell, Memory.onHeap]

@[simp] theorem withCell_heap_size (m : Memory Registers) : (withCell m).heap.words.size = m.heap.words.size + 3 := by
  simp [withCell, Memory.onHeap]

theorem pushCells_grows {count : Nat} (h : pushCells count (m.at_ pc r) = .ok () s) :
    s.pc = pc ∧ m.words.size ≤ s.stack.size ∧ m.heap.words.size ≤ s.heap.size := by
  have hgrows (m : Memory Registers) : m.words.size ≤ (withCell^[count] m).words.size ∧
      m.heap.words.size ≤ (withCell^[count] m).heap.words.size := by
    clear h
    induction count generalizing m with
    | zero => exact ⟨le_rfl, le_rfl⟩
    | succ count ih =>
      obtain ⟨hstack, hheap⟩ := ih (withCell m)
      rw [withCell_size] at hstack
      rw [withCell_heap_size] at hheap
      rw [Function.iterate_succ_apply]
      exact ⟨by omega, by omega⟩
  rw [pushCells_at] at h
  cases h
  exact ⟨rfl, hgrows m⟩

theorem leads_pushZeroCells {count : Nat} (himport : env.imports "malloc" = some malloc) (hmalloc : Allocates L malloc)
    (hp : Depicts Registers.Native L saved m p) (h : pushCells count (m.at_ pc r) = .ok () s) (hroom : Fits L s)
    (hrest : ∀ p', Depicts Registers.Native L saved ⟨s.stack.words, s.heap, s.regs⟩ p' → L.Leads env p' rest Q) :
    L.Leads env p (plain (pushZeroCells count) ++ rest) Q := by
  induction count generalizing m p with
  | zero =>
    cases h
    exact hrest p hp
  | succ count ih =>
    obtain ⟨regs, flags, stack, heap, taken⟩ := p
    have hcell : (m.heap.append [0]).words.size = m.heap.words.size + 1 := by simp
    have h' : pushCells count ((withCell m).at_ pc r) = .ok () s := by
      simp only [pushCells, bind_apply, Exec.alloc_at, Exec.makePair_at, List.replicate, Memory.onHeap_heap,
        Memory.onHeap_onHeap, Heap.append_append, hcell, Exec.push_at] at h
      exact h
    -- the cells to come leave room for this one
    obtain ⟨-, hstack, hheap⟩ := pushCells_grows h'
    have hslots : stack.size < L.slots := by
      rw [hp.size_stack]
      simpa [Nat.succ_le_iff] using hstack.trans hroom.slots
    have hcells : heap.size + 3 ≤ L.words := by
      rw [hp.size_heap]
      simpa using hheap.trans hroom.cells
    simp only [pushZeroCells, plain_append, List.append_assoc]
    refine leads_alloc himport hmalloc (n := 1) rfl hp.taken_eq (by omega) fun regs₁ flags₁ block hkeeps₁ hrdx hblock => ?_
    obtain ⟨x, rfl⟩ := List.length_eq_one_iff.1 hblock
    have htaken : taken + 1 = (heap ++ [word 0].toArray).size := by simp [hp.taken_eq]
    refine leads_storeBlock (i := 0) hrdx rfl (by simp) (gives_imm 0) (leads_push (gives_reg hrdx) hslots
      (leads_pushCell himport hmalloc htaken (by simp; omega) hslots fun regs₂ flags₂ hkeeps₂ => ih ?_ h'))
    have hp' := (hp.append [0]).pushBlock [Heap.address m.heap.words.size, Tag.basic.word]
    simpa [withCell, hp.size_heap, Heap.append_append] using hp'.keeps respects_registers (hkeeps₁.trans hkeeps₂)

/-- an operation that touches the top word finds no saved frame pointer there -/
theorem Op.Proper.top_free {w : Int} (h : op.Proper saved (m.push w))
    (htouches : op.Touches (m.words.size + 1) m.regs.fp m.words.size) : m.words.size ∉ saved := by
  intro hmem
  apply h.free _ hmem
  rw [Memory.push_words, Array.size_push]
  exact htouches

/-! ## Operations

Each operation that succeeds is carried out by its code: one lemma for each of them.
-/

/-- what a `mkbasic` that succeeds has found -/
theorem mkbasic_ok (h : exec image .mkbasic (m.at_ (pc + 1) r) = .ok () s) :
    ∃ (m' : Memory Registers) (w : Int), m = m'.push w ∧
      s = ((m'.onHeap (m'.heap.append [w])).push (Heap.address m'.heap.words.size)).at_ (pc + 1) r := by
  simp only [exec, bind_apply, Exec.alloc_at, List.replicate] at h
  obtain ⟨m₁, w, hm, -⟩ := Exec.pop_bind h
  obtain ⟨m', rfl⟩ : ∃ m' : Memory Registers, m = m'.push w := ⟨_, Memory.push_of_onHeap hm⟩
  simp only [Memory.push_heap, Memory.onHeap_push, Exec.pop_at] at h
  rw [Exec.store_at (by simp)] at h
  simp only [Memory.onHeap_heap, Memory.onHeap_onHeap, Heap.set_append_first, Exec.push_at] at h
  cases h
  exact ⟨m', w, rfl, rfl⟩

/-- what a `copy` of an older block has found; its second word may be the first one of the copy -/
theorem copy_ok (hproper : Op.copy.Proper saved m) (h : exec image .copy (m.at_ (pc + 1) r) = .ok () s) :
    ∃ (m' : Memory Registers) (q : Nat) (a b : Int), m = m'.push (Heap.address q) ∧ m'.heap.words[q]? = some a ∧
      (m'.heap.words[q + 1]? = some b ∨ q + 1 = m'.heap.words.size ∧ a = b) ∧
      s = ((m'.onHeap (m'.heap.append [a, b])).push (Heap.address m'.heap.words.size)).at_ (pc + 1) r := by
  obtain ⟨m', a, rfl, h₁⟩ := Exec.pop_bind h
  simp only [bind_apply, Exec.alloc_at, List.replicate] at h₁
  obtain ⟨u, t, hcopy, h₂⟩ := bind_ok h₁
  obtain ⟨q, p, a, b, rfl, hp, -, ha, hb, rfl⟩ := Exec.copyPair_ok hcopy
  obtain rfl := Heap.address_inj hp
  simp only [Memory.onHeap_heap, Memory.onHeap_onHeap, Heap.set_append_first, Heap.set_append_second, Exec.push_at]
    at ha hb h₂
  cases h₂
  -- the block lies before the copy
  have hq : q < m'.heap.words.size := by
    have hne : q ≠ m'.heap.words.size := fun hq => hproper.copy rfl (by simp [hq])
    have hlt := (Array.getElem?_eq_some_iff.1 hb).1
    simp at hlt
    omega
  rw [Heap.getElem?_append_old hq] at ha
  refine ⟨m', q, a, b, rfl, ha, ?_, rfl⟩
  rcases Nat.lt_or_eq_of_le (Nat.succ_le_of_lt hq) with hlt | heq
  · rw [Heap.getElem?_append_old hlt] at hb
    exact .inl hb
  · have hfirst := Heap.getElem?_append_new m'.heap [a, 0] 0
    rw [Nat.add_zero, ← heq, hb] at hfirst
    exact .inr ⟨heq, (Option.some.inj hfirst).symm⟩

section
variable (henv : Surrounds image pc env) (hp : Depicts Registers.Native L saved m p)
include henv hp

section
variable (himport : env.imports "malloc" = some malloc) (hmalloc : Allocates L malloc)
include himport hmalloc

theorem lowers_mkbasic (hproper : Op.mkbasic.Proper saved m) (h : exec image .mkbasic (m.at_ (pc + 1) r) = .ok () s)
    (hroom : Fits L s) : L.Leads env p (lower .mkbasic) (Arrives Registers.Native L saved s) := by
  obtain ⟨regs, flags, stack, heap, taken⟩ := p
  obtain ⟨m', w, rfl, rfl⟩ := mkbasic_ok h
  obtain ⟨stack, rfl, hp'⟩ := hp.pop (hproper.top_free (by simp [Op.Touches]))
  have hcells : heap.size + 1 ≤ L.words := by
    rw [hp'.size_heap]
    exact hroom.cells_of_append
  have hslots : stack.size < L.slots := by
    rw [hp'.size_stack]
    exact hroom.slots_of_push
  rw [lower, plain_append]
  refine leads_alloc himport hmalloc (n := 1) rfl hp'.taken_eq hcells fun regs₁ flags₁ block hkeeps hrdx hblock => ?_
  obtain ⟨x, rfl⟩ := List.length_eq_one_iff.1 hblock
  refine leads_pop (by decide) (leads_storeBlock (w := word w) (i := 0) hrdx rfl (by simp) (gives_reg rfl)
    (leads_push (gives_reg hrdx) hslots (leads_arrive henv ?_)))
  exact (hp'.pushBlock [w]).keeps respects_registers (hkeeps.set (by decide) _)

theorem lowers_mkind {tag : Tag} (hproper : (Op.mkind tag).Proper saved m)
    (h : exec image (.mkind tag) (m.at_ (pc + 1) r) = .ok () s) (hroom : Fits L s) :
    L.Leads env p (lower (.mkind tag)) (Arrives Registers.Native L saved s) := by
  obtain ⟨regs, flags, stack, heap, taken⟩ := p
  obtain ⟨m', a, rfl, h₁⟩ := Exec.pop_bind h
  simp only [bind_apply, Exec.makePair_at, Exec.push_at] at h₁
  cases h₁
  obtain ⟨stack, rfl, hp'⟩ := hp.pop (hproper.top_free (by simp [Op.Touches]))
  rw [lower, ← List.append_nil (plain _)]
  refine leads_pushCell himport hmalloc hp'.taken_eq ?_ ?_ fun regs' flags' hkeeps => ?_
  · rw [hp'.size_heap]
    exact hroom.cells_of_append
  · rw [hp'.size_stack]
    exact hroom.slots_of_push
  · exact leads_arrive henv ((hp'.keeps respects_registers hkeeps).pushBlock [a, tag.word])

theorem lowers_copy (hproper : Op.copy.Proper saved m) (h : exec image .copy (m.at_ (pc + 1) r) = .ok () s)
    (hroom : Fits L s) : L.Leads env p (lower .copy) (Arrives Registers.Native L saved s) := by
  obtain ⟨regs, flags, stack, heap, taken⟩ := p
  obtain ⟨m', q, a, b, rfl, ha, hb, rfl⟩ := copy_ok hproper h
  obtain ⟨stack, rfl, hp'⟩ := hp.pop (hproper.top_free (by simp [Op.Touches]))
  have hcells : heap.size + 2 ≤ L.words := by
    rw [hp'.size_heap]
    exact hroom.cells_of_append
  have hslots : stack.size < L.slots := by
    rw [hp'.size_stack]
    exact hroom.slots_of_push
  have hfirst (block : List Word) : (heap ++ block.toArray)[q]? = some (word a) := by
    rw [Array.getElem?_append_left (Array.getElem?_eq_some_iff.1 (hp'.cell ha)).1]
    exact hp'.cell ha
  have hsecond (y : Word) : (heap ++ [word a, y].toArray)[q + 1]? = some (word b) := by
    rcases hb with hb | ⟨heq, rfl⟩
    · rw [Array.getElem?_append_left (Array.getElem?_eq_some_iff.1 (hp'.cell hb)).1]
      exact hp'.cell hb
    · rw [Array.getElem?_append_right (by rw [hp'.size_heap]; omega), hp'.size_heap, heq]
      simp
  rw [lower, plain_append]
  refine leads_alloc himport hmalloc (n := 2) rfl hp'.taken_eq hcells fun regs₁ flags₁ block hkeeps hrdx hblock => ?_
  obtain ⟨x, y, rfl⟩ := List.length_eq_two.1 hblock
  refine leads_pop (by decide) (leads_mov (by decide) (gives_mem (x := .cell q) (w := word a)
    (locate_cell rfl (Int.add_zero _)) (hfirst _)) (leads_storeBlock (w := word a) (i := 0) hrdx rfl (by simp)
    (gives_reg rfl) (leads_mov (by decide) (gives_mem (x := .cell (q + 1)) (w := word b)
    (locate_cell rfl (Heap.address_succ q)) (hsecond y)) (leads_storeBlock (w := word b) (i := 1) hrdx rfl (by simp)
    (gives_reg rfl) (leads_push (gives_reg hrdx) hslots (leads_arrive henv ?_))))))
  exact (hp'.pushBlock [a, b]).keeps respects_registers
    (((hkeeps.set (by decide) _).set (by decide) _).set (by decide) _)

end

theorem lowers_getbasic (hwords : ∀ w ∈ m.heap.words, isWord w) (hproper : Op.getbasic.Proper saved m)
    (h : exec image .getbasic (m.at_ (pc + 1) r) = .ok () s) (hroom : Fits L s) :
    L.Leads env p (lower .getbasic) (Arrives Registers.Native L saved s) := by
  obtain ⟨regs, flags, stack, heap, taken⟩ := p
  obtain ⟨m', a, rfl, h₁⟩ := Exec.pop_bind h
  obtain ⟨q, payload, rfl, hpayload, h₂⟩ := Exec.load_bind h₁
  rw [Heap.address_succ] at h₂
  obtain ⟨q', tag, hq', htag, h₃⟩ := Exec.load_bind h₂
  obtain rfl := Heap.address_inj hq'
  obtain ⟨j, hj, rfl⟩ := hproper.getbasic rfl q payload (by simp) hpayload
  obtain ⟨v, hv⟩ : ∃ v, m'.heap.words[j]? = some v := ⟨_, Array.getElem?_eq_getElem hj⟩
  obtain ⟨stack, rfl, hp'⟩ := hp.pop (hproper.top_free (by simp [Op.Touches]))
  have hequal : Cond.holds (.difference (word tag) (word Tag.basic.char.toNat)) .e = decide (tag = Tag.basic.word) :=
    holds_difference (hwords tag (Array.mem_of_getElem? htag)) (by decide) .e
  -- the word that is pushed is in rax
  have hpush {w : Int} {regs' : Reg → Word} {flags' : Option Flags} (hs : s = (m'.push w).at_ (pc + 1) r)
      (hkeeps : Keeps regs regs') (hrax : regs' .rax = word w) :
      L.Leads env ⟨regs', flags', stack, heap, taken⟩ (plain [.push (.reg .rax)])
        (Arrives Registers.Native L saved s) := by
    subst hs
    refine leads_push (gives_reg hrax) ?_ (leads_arrive henv ((hp'.push w).keeps respects_registers hkeeps))
    rw [hp'.size_stack]
    exact hroom.slots_of_push
  refine leads_pop (by decide) (leads_mov (by decide) (gives_mem (x := .cell q) (locate_cell rfl (Int.add_zero _))
    (hp'.cell hpayload)) (leads_mov (by decide) (gives_mem (x := .cell j) (locate_cell rfl (Int.add_zero _))
    (hp'.cell hv)) (leads_cmpChar (x := .cell (q + 1)) (locate_cell rfl (Heap.address_succ q)) (hp'.cell htag)
    (leads_cmov (by decide) (by decide) ?_))))
  rw [hequal]
  by_cases hbasic : tag = Tag.basic.word
  · rw [if_pos hbasic] at h₃
    obtain ⟨j', w, hj', hw, h₄⟩ := Exec.load_bind h₃
    obtain rfl := Heap.address_inj hj'
    obtain rfl := Option.some.inj (hv.symm.trans hw)
    cases h₄
    rw [if_pos (decide_eq_true hbasic)]
    exact hpush rfl ⟨rfl, rfl, rfl, rfl, rfl⟩ rfl
  · rw [if_neg hbasic] at h₃
    cases h₃
    rw [if_neg (by simp [hbasic])]
    exact hpush rfl ⟨rfl, rfl, rfl, rfl, rfl⟩ rfl

theorem lowers_pushloc {a : Int} (hproper : (Op.pushloc a).Proper saved m)
    (h : exec image (.pushloc a) (m.at_ (pc + 1) r) = .ok () s) (hroom : Fits L s) :
    L.Leads env p (lower (.pushloc a)) (Arrives Registers.Native L saved s) := by
  obtain ⟨regs, flags, stack, heap, taken⟩ := p
  simp only [exec, bind_apply, Exec.registers_at] at h
  obtain ⟨i, hi, h₁⟩ := Exec.check_bind h
  obtain ⟨w, hw, h₂⟩ := Exec.getAt_bind h₁
  rw [Exec.push_at] at h₂
  cases h₂
  have hplace : m.regs.fp + a = i := slot_ok hi
  have hfree : i ∉ saved := fun hmem => hproper.free i hmem hplace.symm
  have hoffset : 8 * (m.regs.fp + 1) - -wordSize * a = 8 * (i + 1) := by
    rw [← hplace, wordSize]
    ring
  refine leads_push (gives_mem (x := .slot i) (locate_under hp.regs.rbp hoffset) (hp.slot hw hfree)) ?_
    (leads_arrive henv (hp.push w))
  rw [hp.size_stack]
  exact hroom.slots_of_push

theorem lowers_pushglob {i : Int} (h : exec image (.pushglob i) (m.at_ (pc + 1) r) = .ok () s) (hroom : Fits L s) :
    L.Leads env p (lower (.pushglob i)) (Arrives Registers.Native L saved s) :=
  leads_pushElement henv hp hp.regs.r12 h hroom

theorem lowers_pushform {i : Int} (h : exec image (.pushform i) (m.at_ (pc + 1) r) = .ok () s) (hroom : Fits L s) :
    L.Leads env p (lower (.pushform i)) (Arrives Registers.Native L saved s) :=
  leads_pushElement henv hp hp.regs.r13 h hroom

theorem lowers_store (hproper : Op.store.Proper saved m) (h : exec image .store (m.at_ (pc + 1) r) = .ok () s) :
    L.Leads env p (lower .store) (Arrives Registers.Native L saved s) := by
  obtain ⟨m₁, source, rfl, h₁⟩ := Exec.pop_bind h
  obtain ⟨m', dest, rfl, h₂⟩ := Exec.top_bind h₁
  have hnext : m'.words.size ∉ saved := fun hmem => hproper.free _ hmem (by simp [Op.Touches])
  exact leads_copyOver (d := 0) (i := m'.words.size) respects_registers henv hp
    (hproper.top_free (by simp [Op.Touches])) hnext (by simp) (by simp) h₂

theorem lowers_setgp (hproper : Op.setgp.Proper saved m) (h : exec image .setgp (m.at_ (pc + 1) r) = .ok () s) :
    L.Leads env p (lower .setgp) (Arrives Registers.Native L saved s) := by
  obtain ⟨regs, flags, stack, heap, taken⟩ := p
  obtain ⟨m', a, rfl, h₁⟩ := Exec.pop_bind h
  simp only [bind_apply, Exec.registers_at, Exec.setRegisters_at] at h₁
  cases h₁
  obtain ⟨stack, rfl, hp'⟩ := hp.pop (hproper.top_free (by simp [Op.Touches]))
  exact leads_pop (by decide) (leads_arrive henv (hp'.withRegs ⟨rfl, hp.regs.r13, hp.regs.r14, hp.regs.rbp⟩))

theorem lowers_slide {n : Int} (hproper : (Op.slide n).Proper saved m)
    (h : exec image (.slide n) (m.at_ (pc + 1) r) = .ok () s) (hroom : Fits L s) :
    L.Leads env p (lower (.slide n)) (Arrives Registers.Native L saved s) := by
  obtain ⟨d, hd, h₁⟩ := Exec.check_bind h
  obtain rfl := slot_ok hd
  have hfree : ∀ j ∈ saved, j + d + 1 < m.words.size := by
    intro j hj
    have := hproper.free j hj
    simp only [Op.Touches] at this
    omega
  exact leads_slideWords respects_registers henv hp hfree h₁ hroom

end

/-! ### Calls and returns -/

/-- what a call that succeeds has found -/
theorem call_ok (h : exec image .call (m.at_ pc r) = .ok () s) :
    ∃ (words : Array Int) (i q k target : Nat) (gp formals returns : Int),
      words = (m.words.push m.regs.gp).push m.regs.fp ∧ i + 3 = m.words.size ∧ m.words[i]? = some (Heap.address q) ∧
      words[i + 1]? = some formals ∧ words[i + 2]? = some returns ∧ m.heap.words[q]? = some (Heap.address k) ∧
      m.heap.words[k]? = some (Image.base + target) ∧ m.heap.words[k + 1]? = some gp ∧
      s = Memory.at_ ⟨(words.setIfInBounds (i + 2) m.regs.returns).setIfInBounds (i + 1) m.regs.formals, m.heap,
        ⟨gp, formals, returns, m.words.size + 1⟩⟩ target r := by
  simp only [exec, bind_apply, Exec.registers_at] at h
  obtain ⟨i, cell, hi, hcell, h₁⟩ := Exec.peek_bind h
  obtain ⟨q, function, rfl, hfunction, h₂⟩ := Exec.load_bind h₁
  simp only [Exec.push_at] at h₂
  obtain ⟨k', gp, hk', hgp, h₃⟩ := Exec.load_bind h₂
  simp only [Exec.push_at, Exec.stackSize_at] at h₃
  -- the places of the two vectors
  have hhigh : ((m.push m.regs.gp).push m.regs.fp).words.size - 1 - 2 = i + 2 := by simp; omega
  have hlow : ((m.push m.regs.gp).push m.regs.fp).words.size - 1 - 3 = i + 1 := by simp; omega
  rw [hhigh, hlow] at h₃
  obtain ⟨returns, hreturns, h₄⟩ := Exec.getAt_bind h₃
  obtain ⟨-, h₅⟩ := Exec.setAt_bind h₄
  obtain ⟨formals, hformals, h₆⟩ := Exec.getAt_bind h₅
  obtain ⟨-, h₇⟩ := Exec.setAt_bind h₆
  simp only [Exec.setRegisters_at] at h₇
  obtain ⟨k, code, rfl, hcode, h₈⟩ := Exec.load_bind h₇
  obtain ⟨target, htarget, h₉⟩ := Exec.check_bind h₈
  obtain rfl := Image.pcOf_ok htarget
  rw [Exec.jumpTo_at] at h₉
  cases h₉
  rw [Heap.address_succ] at hk'
  obtain rfl := Heap.address_inj hk'
  rw [Memory.write, Array.getElem?_setIfInBounds_ne (by omega)] at hformals
  exact ⟨_, i, q, k, target, gp, formals, returns, rfl, by omega, hcell, hformals, hreturns, hfunction, hcode, hgp, by
    simp [Memory.write]⟩

/-- what a return that succeeds has found -/
theorem ret_ok {i : Int} (h : exec image (.ret i) (m.at_ pc r) = .ok () s) :
    ∃ (m₁ : Memory Registers) (words : Array Int) (place q target : Nat) (result formals returns gp fp : Int),
      m = m₁.push result ∧ m₁.regs.fp = place + 4 ∧ place < m₁.words.size ∧
      (m₁.words.setIfInBounds place result).take (place + 5) =
        (((words.push formals).push returns).push gp).push fp ∧
      m₁.regs.returns + wordSize * (i + 1) = Heap.address q ∧ m₁.heap.words[q]? = some (Image.base + target) ∧
      s = Memory.at_ ⟨words, m₁.heap, ⟨gp, formals, returns, fp⟩⟩ target r := by
  simp only [exec, bind_apply, Exec.registers_at] at h
  obtain ⟨m₁, result, rfl, h₁⟩ := Exec.pop_bind h
  obtain ⟨bottom, hbottom, h₂⟩ := Exec.check_bind h₁
  obtain ⟨place, hplace, h₃⟩ := Exec.check_bind h₂
  obtain ⟨hlt, h₄⟩ := Exec.setAt_bind h₃
  simp only [Exec.truncate_at] at h₄
  obtain ⟨m₂, fp, hm, h₅⟩ := Exec.pop_bind h₄
  obtain ⟨m₃, gp, rfl, h₆⟩ := Exec.pop_bind h₅
  obtain ⟨q, back, hq, hback, h₇⟩ := Exec.load_bind h₆
  obtain ⟨m₄, returns, rfl, h₈⟩ := Exec.pop_bind h₇
  obtain ⟨m₅, formals, rfl, h₉⟩ := Exec.pop_bind h₈
  simp only [Exec.setRegisters_at] at h₉
  obtain ⟨target, htarget, h₁₀⟩ := Exec.check_bind h₉
  obtain rfl := Image.pcOf_ok htarget
  rw [Exec.jumpTo_at] at h₁₀
  cases h₁₀
  have hfp : m₁.regs.fp = place + 4 := calleeSlot_ok hplace
  obtain rfl : bottom = place + 4 := by
    have : m₁.regs.fp = bottom := slot_ok hbottom
    omega
  have hwords : (m₁.words.setIfInBounds place result).take (place + 5) =
      (((m₅.words.push formals).push returns).push gp).push fp := congrArg Memory.words hm
  have hheap : m₁.heap = m₅.heap := by
    have := congrArg Memory.heap hm
    exact this
  refine ⟨m₁, m₅.words, place, q, target, result, formals, returns, gp, fp, rfl, hfp, hlt, hwords, hq, ?_, ?_⟩
  · exact (congrArg (fun heap => heap.words[q]?) hheap).trans hback
  · rw [hheap]

theorem lowers_call (hp : Depicts Registers.Native L saved m p) (hproper : Op.call.Proper saved m)
    (h : exec image .call (m.at_ (pc + 1) r) = .ok () s) (hroom : Fits L s) :
    L.Leads env p (lower .call) (Arrives Registers.Native L (Op.call.saves saved m.words.size m.regs.fp) s) := by
  obtain ⟨regs, flags, stack, heap, taken⟩ := p
  obtain ⟨words, i, q, k, target, gp, formals, returns, rfl, hi, hcell, hformals, hreturns, hfunction, hcode, hgp, rfl⟩ :=
    call_ok h
  have hsize : stack.size = i + 3 := hp.size_stack.trans hi.symm
  have hslots : stack.size + 2 ≤ L.slots := by
    rw [hp.size_stack]
    simpa [Nat.succ_le_iff] using hroom.slots
  -- the words from the function's cell on are no saved frame pointers, but for the new one
  have hfree : ∀ j, i ≤ j → j ∉ saved := fun j hj hmem => hproper.free j hmem (by simp only [Op.Touches]; omega)
  have hfree' : ∀ j, i ≤ j → j ≠ m.words.size + 1 → j ∉ insert (m.words.size + 1) saved := fun j hj hne => by
    simpa [hne] using hfree j hj
  have hpushed := (hp.push m.regs.gp).push_saved m.regs.fp
  rw [Memory.push_words, Array.size_push] at hpushed
  have hwritten := hpushed.write (hfree' (i + 2) (by omega) (by omega)) m.regs.returns
  have hafter := hwritten.write (hfree' (i + 1) (by omega) (by omega)) m.regs.formals
  have hformals' : ((m.push m.regs.gp).push m.regs.fp |>.write (i + 2) m.regs.returns).words[i + 1]? = some formals := by
    rw [Memory.write, Array.getElem?_setIfInBounds_ne (by omega)]
    exact hformals
  have hr14 : regs .r14 = word m.regs.returns := hp.regs.r14
  have hr13 : regs .r13 = word m.regs.formals := hp.regs.r13
  rw [← hr14] at hwritten
  rw [← hr14, ← hr13] at hafter
  have hbottom : L.under (8 * (m.words.size + 2)) = L.frame (m.words.size + 1) := congrArg L.under (by ring)
  refine leads_mov (by decide) (gives_mem (x := .slot i) (locate_onStack (k := 2) (by omega)) (hp.slot hcell (hfree i le_rfl)))
    (leads_mov (by decide) (gives_mem (x := .cell q) (locate_cell rfl (Int.add_zero _)) (hp.cell hfunction))
    (leads_push (gives_reg hp.regs.r12) (by omega) (leads_mov (by decide) (gives_mem (x := .cell (k + 1))
    (locate_cell rfl (Heap.address_succ k)) (hp.cell hgp)) (leads_push (gives_reg hp.regs.rbp) (by simp; omega)
    (leads_mov (by decide) (gives_reg (w := L.under (8 * (m.words.size + 2))) ?_) (leads_xchg (x := .slot (i + 2))
    (w := word returns) (by decide) (locate_under rfl (by omega)) (hpushed.slot hreturns (hfree' _ (by omega) (by omega)))
    (leads_xchg (x := .slot (i + 1)) (w := word formals) (by decide) (locate_under rfl (by omega)) ?_
    (leads_jmpMem (x := .cell k) (locate_cell rfl (Int.add_zero _)) (hp.cell hcode) ?_))))))))
  · refine congrArg L.under ?_
    simp [hp.size_stack]
    ring
  · exact hwritten.slot hformals' (hfree' _ (by omega) (by omega))
  · exact hafter.withRegs ⟨rfl, rfl, rfl, hbottom⟩

/-- the words of a frame over the function's cell; the uppermost is a saved frame pointer -/
theorem pop_frame {formals returns gp fp : Int} (hp : Depicts Registers.Native L saved
      (m.pushes [formals, returns, gp, fp]) ⟨regs, flags, stack, heap, taken⟩)
    (hfp : m.words.size + 3 ∈ saved) (hfree : ∀ j ∈ saved, j < m.words.size ∨ m.words.size + 3 ≤ j) :
    ∃ stack', stack = (((stack'.push (word formals)).push (word returns)).push (word gp)).push (L.frame fp) ∧
      Depicts Registers.Native L (saved.erase (m.words.size + 3)) m ⟨regs, flags, stack', heap, taken⟩ := by
  have hother (j : Nat) (hge : m.words.size ≤ j) (hlt : j < m.words.size + 3) :
      j ∉ saved.erase (m.words.size + 3) := by
    intro hmem
    have := hfree j (Finset.mem_of_mem_erase hmem)
    omega
  obtain ⟨stack₃, rfl, hp₃⟩ := hp.pop_saved (by simpa using hfp)
  simp only [Memory.push_words, Array.size_push] at hp₃
  obtain ⟨stack₂, rfl, hp₂⟩ := hp₃.pop (by simpa using hother (m.words.size + 2) (by omega) (by omega))
  obtain ⟨stack₁, rfl, hp₁⟩ := hp₂.pop (by simpa using hother (m.words.size + 1) (by omega) (by omega))
  obtain ⟨stack₀, rfl, hp₀⟩ := hp₁.pop (hother m.words.size (by omega) (by omega))
  exact ⟨stack₀, rfl, hp₀⟩

theorem lowers_ret {i : Int} (hp : Depicts Registers.Native L saved m p) (hproper : (Op.ret i).Proper saved m)
    (h : exec image (.ret i) (m.at_ (pc + 1) r) = .ok () s) :
    L.Leads env p (lower (.ret i)) (Arrives Registers.Native L ((Op.ret i).saves saved m.words.size m.regs.fp) s) := by
  obtain ⟨regs, flags, stack, heap, taken⟩ := p
  obtain ⟨m₁, words, place, q, target, result, formals, returns, gp, fp, rfl, hfp, hlt, htake, hq, hback, rfl⟩ := ret_ok h
  obtain ⟨⟨j, hj, hjfp⟩, habove⟩ := hproper.ret i rfl
  have hfree := hproper.free
  simp only [Memory.push_regs, Memory.push_words, Array.size_push, hfp] at hjfp habove hfree
  obtain rfl : j = place + 4 := by omega
  obtain ⟨stack, rfl, hp₁⟩ := hp.pop (hproper.top_free (by simp [Op.Touches]))
  -- the frame, with the result in the place of the function's cell
  have hsize : words.size = place + 1 := by
    have := congrArg Array.size htake
    simp at this
    omega
  have hframe : (⟨(m₁.write place result).words.take (place + 5), m₁.heap, m₁.regs⟩ : Memory Registers) =
      Memory.pushes ⟨words, m₁.heap, m₁.regs⟩ [formals, returns, gp, fp] := congrArg (Memory.mk · m₁.heap m₁.regs) htake
  have hleft := (hp₁.overwrite place result).take (n := place + 5) (by simp [Memory.write]; omega)
  simp only [Memory.write] at hleft hframe
  rw [hframe] at hleft
  have hmember (j : Nat) (hmem : j ∈ (saved.erase place).filter (· < place + 5)) : j < place + 1 ∨ place + 4 ≤ j := by
    have := hfree j (Finset.mem_of_mem_erase (Finset.mem_of_mem_filter j hmem))
    simp only [Op.Touches] at this
    omega
  obtain ⟨stack', hstack, hp'⟩ := pop_frame hleft (by simp [hsize, hj]; omega) fun j hmem => by
    rw [hsize]
    exact hmember j hmem
  have hsaves : (Op.ret i).saves saved (m₁.push result).words.size m₁.regs.fp =
      ((saved.erase place).filter (· < place + 5)).erase (place + 4) := by
    ext j
    simp only [Op.saves, hfp, Finset.mem_filter, Finset.mem_erase]
    constructor
    · rintro ⟨hmem, hlow⟩
      exact ⟨by omega, ⟨by omega, hmem⟩, by omega⟩
    · rintro ⟨hne, ⟨hne', hmem⟩, hlow⟩
      have := hmember j (by simp [hmem, hne', hlow])
      exact ⟨hmem, by omega⟩
  simp only [hsize, ← hsaves] at hp'
  have hsize' : stack.size = m₁.words.size := hp₁.size_stack
  have hrbp : regs .rbp = L.under (8 * ((place : Int) + 5)) := by
    refine hp₁.regs.rbp.trans (congrArg L.under ?_)
    rw [hfp]
    ring
  refine leads_pop (by decide) (leads_store (x := .slot place) (w := word result) (locate_under hrbp (by ring)) ?_
    (gives_reg rfl) (leads_movTop (n := place + 5) ?_ (gives_reg (hrbp.trans (congrArg L.under (by push_cast; ring)))) ?_))
  · rw [Picture.at, Option.isSome_iff_exists]
    exact ⟨_, Array.getElem?_eq_getElem (show place < stack.size by omega)⟩
  · simp
    omega
  · rw [hstack]
    exact leads_pop (by decide) (leads_pop (by decide) (leads_mov (by decide) (gives_mem (x := .cell q)
      (locate_cell hp₁.regs.r14 hq) (hp₁.cell hback)) (leads_pop (by decide) (leads_pop (by decide) (leads_jmpReg rfl
      (hp'.withRegs ⟨rfl, rfl, rfl, rfl⟩))))))

/-- **Operations.** The code of an operation that succeeds does what the operation does. -/
theorem leads_own (himport : env.imports "malloc" = some malloc) (hmalloc : Allocates L malloc)
    (henv : Surrounds image pc env) (hp : Depicts Registers.Native L saved m p)
    (hwords : ∀ w ∈ m.heap.words, isWord w) (hproper : op.Proper saved m)
    (h : exec image op (m.at_ (pc + 1) r) = .ok () s) (hroom : Fits L s) :
    L.Leads env p (lower op) (Arrives Registers.Native L (op.saves saved m.words.size m.regs.fp) s) := by
  cases op with
  | mkbasic => exact lowers_mkbasic henv hp himport hmalloc hproper h hroom
  | getbasic => exact lowers_getbasic henv hp hwords hproper h hroom
  | mkind tag => exact lowers_mkind henv hp himport hmalloc hproper h hroom
  | copy => exact lowers_copy henv hp himport hmalloc hproper h hroom
  | mkvec n =>
    refine leads_makeVector respects_registers himport hmalloc henv hp (fun j hj => ?_) h hroom
    have := hproper.free j hj
    simp only [Op.Touches] at this
    omega
  | mkfunval body => exact leads_makeFunction respects_registers himport hmalloc henv hp hproper.free h hroom
  | pushloc a => exact lowers_pushloc henv hp hproper h hroom
  | pushglob i => exact lowers_pushglob henv hp h hroom
  | pushform i => exact lowers_pushform henv hp h hroom
  | alloc n =>
    obtain ⟨hpc, -, -⟩ := pushCells_grows h
    rw [lower, ← List.append_nil (plain _), Arrives, hpc]
    exact leads_pushZeroCells himport hmalloc hp h hroom fun p' hp' => leads_done henv hp'
  | store => exact lowers_store henv hp hproper h
  | setgp => exact lowers_setgp henv hp hproper h
  | call => exact lowers_call hp hproper h hroom
  | ret i => exact lowers_ret hp hproper h
  | slide n => exact lowers_slide henv hp hproper h hroom

end

/-! ## Faults -/

theorem quiet_slot (a : Int) : Exec.Quiet (Exec.check (slot a) : Exec Registers Nat) := by
  refine Exec.Names.quiet fun e h => ?_
  rw [slot] at h
  split_ifs at h
  cases h
  exact Exec.badAddress_quiet _ _

theorem quiet_calleeSlot (fp : Int) : Exec.Quiet (Exec.check (calleeSlot fp) : Exec Registers Nat) := by
  refine Exec.Names.quiet fun e h => ?_
  rw [calleeSlot] at h
  split_ifs at h
  cases h
  exact Exec.badAddress_quiet _ _

theorem quiet_pushCells (count : Nat) : Exec.Quiet (pushCells count) := by
  induction count with
  | zero => exact Exec.quiet_pure ()
  | succ count ih =>
    exact (Exec.quiet_alloc 1).bind fun _ => (Exec.quiet_makePair _ _).bind fun _ => (Exec.quiet_push _).bind fun _ => ih

theorem quiet_exec (image : Image Op) (op : Op) : Exec.Quiet (exec image op) := by
  cases op with
  | mkbasic =>
    exact (Exec.quiet_alloc 1).bind fun basic => Exec.quiet_pop.bind fun _ => (Exec.quiet_store basic _).bind fun _ =>
      Exec.quiet_push basic
  | getbasic =>
    refine Exec.quiet_pop.bind fun _ => (Exec.quiet_load _).bind fun payload => (Exec.quiet_load _).bind fun tag => ?_
    split
    · exact (Exec.quiet_load payload).bind Exec.quiet_push
    · exact Exec.quiet_push payload
  | mkind tag => exact Exec.quiet_pop.bind fun _ => (Exec.quiet_makePair _ _).bind Exec.quiet_push
  | copy =>
    exact Exec.quiet_pop.bind fun _ => (Exec.quiet_alloc 2).bind fun new => (Exec.quiet_copyPair _ new).bind fun _ =>
      Exec.quiet_push new
  | mkvec n => exact (Exec.quiet_makeVector n).bind Exec.quiet_push
  | mkfunval body => exact (Exec.quiet_makeFunction image body).bind Exec.quiet_push
  | pushloc a =>
    exact Exec.quiet_registers.bind fun _ => (quiet_slot _).bind fun i => (Exec.quiet_getAt i).bind Exec.quiet_push
  | pushglob i | pushform i =>
    exact Exec.quiet_registers.bind fun _ => (Exec.quiet_element _ i).bind Exec.quiet_push
  | alloc n => exact quiet_pushCells _
  | store => exact Exec.quiet_pop.bind fun source => Exec.quiet_top.bind (Exec.quiet_copyPair source)
  | setgp => exact Exec.quiet_pop.bind fun _ => Exec.quiet_registers.bind fun _ => Exec.quiet_setRegisters _
  | call =>
    exact Exec.quiet_registers.bind fun _ => (Exec.quiet_peek 2).bind fun _ => (Exec.quiet_load _).bind fun _ =>
      (Exec.quiet_push _).bind fun _ => (Exec.quiet_load _).bind fun _ => (Exec.quiet_push _).bind fun _ =>
      Exec.quiet_stackSize.bind fun _ => (Exec.quiet_getAt _).bind fun _ => (Exec.quiet_setAt _ _).bind fun _ =>
      (Exec.quiet_getAt _).bind fun _ => (Exec.quiet_setAt _ _).bind fun _ => (Exec.quiet_setRegisters _).bind fun _ =>
      (Exec.quiet_load _).bind fun code => (Exec.quiet_pcOf image code).bind Exec.quiet_jumpTo
  | ret i =>
    exact Exec.quiet_registers.bind fun _ => Exec.quiet_pop.bind fun _ => (quiet_slot _).bind fun _ =>
      (quiet_calleeSlot _).bind fun _ => (Exec.quiet_setAt _ _).bind fun _ => (Exec.quiet_truncate _).bind fun _ =>
      Exec.quiet_pop.bind fun _ => Exec.quiet_pop.bind fun _ => (Exec.quiet_element _ _).bind fun back =>
      Exec.quiet_pop.bind fun _ => Exec.quiet_pop.bind fun _ => (Exec.quiet_setRegisters _).bind fun _ =>
      (Exec.quiet_pcOf image back).bind Exec.quiet_jumpTo
  | slide n => exact (quiet_slot n).bind Exec.quiet_slide

end ThreeMachines.Vector
