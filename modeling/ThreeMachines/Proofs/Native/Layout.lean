/-
Where a machine's words lie in the memory of the processor.

The operand stack grows down from `base`: word `i` lies `8 * (i + 1)` bytes under it. Word `j` of the heap lies at its own
address. A picture lists what is known of the processor: its registers, the words of the stack and of the heap, and the
words that the allocator has handed out. Memory under the stack is there but may hold anything.

- `Layout.apart`: two places of a layout have no byte in common.
- `Layout.Shows`: the processor looks like a picture. The lemmas after it say how the picture changes with the processor.
-/
import ThreeMachines.Proofs.Native.Operators
import ThreeMachines.Proofs.Blocks

namespace ThreeMachines.Native

structure Layout where
  /-- the address after the lowest word of the stack -/
  base : Word
  /-- words that the stack may have -/
  slots : Nat
  /-- words that the heap may have -/
  words : Nat
  stack_fits : 8 * slots ≤ base.toNat
  heap_fits : Heap.base.toNat + 8 * words ≤ 2 ^ 64
  disjoint : base.toNat ≤ Heap.base.toNat ∨ Heap.base.toNat + 8 * words + 8 * slots ≤ base.toNat

/-- four words have room under this address -/
theorem four_words_fit : 8 * 4 ≤ (0x1000 : Word).toNat := by decide

/-- the place of a word -/
inductive Place where
  /-- word `i` of the stack, counted from the bottom -/
  | slot (i : Nat)
  /-- word `j` of the heap -/
  | cell (j : Nat)
deriving DecidableEq

namespace Layout

variable (L : Layout)

/-- the address `x` bytes under the base -/
def under (x : Int) : Word := L.base - word x

/-- what rsp is with `n` words on the stack -/
def top (n : Nat) : Word := L.under (8 * n)

/-- the address that stands for a stack index in a frame pointer -/
def frame (i : Int) : Word := L.under (8 * (i + 1))

def address : Place → Word
  | .slot i => L.under (8 * (i + 1))
  | .cell j => word (Heap.address j)

/-- the layout has the place -/
def Has : Place → Prop
  | .slot i => i < L.slots
  | .cell j => j < L.words

variable {L}

theorem under_add (x y : Int) : L.under x + word y = L.under (x - y) := by
  simp only [under, word_sub, BitVec.sub_eq_add_neg, BitVec.neg_add, BitVec.neg_neg, BitVec.add_assoc]

theorem under_sub (x y : Int) : L.under x - word y = L.under (x + y) := by
  rw [BitVec.sub_eq_add_neg, ← word_neg, under_add, Int.sub_neg]

/-- the distance of two addresses -/
theorem under_sub_under (x y : Int) : L.under x - L.under y = word (y - x) := by
  rw [word_sub, under, under]
  generalize word x = a
  generalize word y = b
  bv_omega

theorem toNat_under {n : Nat} (h : n ≤ L.base.toNat) : (L.under n).toNat = L.base.toNat - n := by
  have hlt := L.base.isLt
  rw [under, BitVec.toNat_sub, toNat_word (by omega)]
  omega

theorem toNat_slot {i : Nat} (h : i < L.slots) : (L.address (.slot i)).toNat = L.base.toNat - 8 * (i + 1) := by
  have hfits := L.stack_fits
  exact toNat_under (n := 8 * (i + 1)) (by omega)

theorem toNat_cell {j : Nat} (h : j < L.words) : (L.address (.cell j)).toNat = Heap.base.toNat + 8 * j := by
  have hfits := L.heap_fits
  have haddress : Heap.address j = (Heap.base.toNat + 8 * j : Nat) := by
    rw [Heap.address, wordSize]
    rfl
  rw [address, haddress, toNat_word (by omega)]

/-- **Places do not overlap.** -/
theorem apart {x y : Place} (hx : L.Has x) (hy : L.Has y) (hne : x ≠ y) : Bytes.Apart (L.address x) (L.address y) := by
  have hstack := L.stack_fits
  have hheap := L.heap_fits
  have hboth := L.disjoint
  have hlt := L.base.isLt
  -- one of the two lies before the other
  suffices (L.address x).toNat + 8 ≤ (L.address y).toNat ∧ (L.address y).toNat + 8 ≤ 2 ^ 64 ∨
      (L.address y).toNat + 8 ≤ (L.address x).toNat ∧ (L.address x).toNat + 8 ≤ 2 ^ 64 from
    this.elim (fun h => Bytes.apart_of_le h.1 h.2) fun h => (Bytes.apart_of_le h.1 h.2).symm
  cases x with
  | slot i =>
    simp only [Has] at hx
    cases y with
    | slot j =>
      simp only [Has] at hy
      have hij : i ≠ j := fun h => hne (by rw [h])
      rw [toNat_slot hx, toNat_slot hy]
      omega
    | cell j =>
      simp only [Has] at hy
      rw [toNat_slot hx, toNat_cell hy]
      omega
  | cell i =>
    simp only [Has] at hx
    cases y with
    | slot j =>
      simp only [Has] at hy
      rw [toNat_cell hx, toNat_slot hy]
      omega
    | cell j =>
      simp only [Has] at hy
      have hij : i ≠ j := fun h => hne (by rw [h])
      rw [toNat_cell hx, toNat_cell hy]
      omega

end Layout

/-- registers with another word in one of them -/
def setReg (regs : Reg → Word) (r : Reg) (w : Word) : Reg → Word := fun r' => if r' = r then w else regs r'

@[simp] theorem setReg_self (regs : Reg → Word) (r : Reg) (w : Word) : setReg regs r w r = w := if_pos rfl

@[simp] theorem setReg_other {regs : Reg → Word} {r r' : Reg} {w : Word} (h : r' ≠ r) :
    setReg regs r w r' = regs r' := if_neg h

/-- what is known of the processor; rsp follows from the size of the stack -/
structure Picture where
  regs : Reg → Word
  flags : Option Flags
  /-- the bottom word first -/
  stack : Array Word
  heap : Array Word
  /-- words that the allocator has handed out -/
  taken : Nat

/-- the word at a place -/
def Picture.at (p : Picture) : Place → Option Word
  | .slot i => p.stack[i]?
  | .cell j => p.heap[j]?

/-- another word at the top -/
theorem setIfInBounds_push {α : Type} (ws : Array α) (a b : α) :
    (ws.push a).setIfInBounds ws.size b = ws.push b := by
  rw [← Array.append_singleton, Array.setIfInBounds_append_right le_rfl]
  simp

/-- the word under the top -/
theorem getElem?_push_push {α : Type} (ws : Array α) (a b : α) : ((ws.push a).push b)[ws.size]? = some a := by
  rw [Array.getElem?_push_lt (by simp), Array.getElem_push_eq]

/-- the words up to one that has just been written -/
theorem take_setIfInBounds {α : Type} {ws : Array α} {i : Nat} (hi : i < ws.size) (a : α) :
    (ws.setIfInBounds i a).take (i + 1) = (ws.take i).push a := by
  refine Array.ext_getElem? fun j => ?_
  simp only [Array.take_eq_extract, Array.getElem?_extract, Array.getElem?_push, Array.getElem?_setIfInBounds,
    Array.size_extract, Array.size_setIfInBounds]
  grind

/-- with another word at a place -/
def Picture.put (p : Picture) (w : Word) : Place → Picture
  | .slot i => { p with stack := p.stack.setIfInBounds i w }
  | .cell j => { p with heap := p.heap.setIfInBounds j w }

namespace Layout

variable {L : Layout}

/-- a register as the picture has it -/
def reg (L : Layout) (p : Picture) (r : Reg) : Word := if r = .rsp then L.top p.stack.size else p.regs r

/-- the processor looks like the picture -/
structure Shows (L : Layout) (p : Picture) (c : Cpu) : Prop where
  regs : ∀ r, c.regs r = L.reg p r
  flags : c.flags = p.flags
  taken : c.taken = p.taken
  slots : p.stack.size ≤ L.slots
  cells : p.heap.size ≤ L.words
  mapped : ∀ i < L.slots, (c.mem.read (L.address (.slot i))).isSome
  words : ∀ x w, p.at x = some w → c.mem.read (L.address x) = some w

namespace Shows

variable {p : Picture} {c : Cpu} {regs : Reg → Word} {flags : Option Flags} {stack heap : Array Word} {taken : Nat}
  {w : Word} {r : Reg} {x : Place}

theorem has (h : L.Shows p c) (hx : p.at x = some w) : L.Has x := by
  cases x with
  | slot i => exact (Array.getElem?_eq_some_iff.1 hx).1.trans_le h.slots
  | cell j => exact (Array.getElem?_eq_some_iff.1 hx).1.trans_le h.cells

theorem rsp (h : L.Shows p c) : c.regs .rsp = L.top p.stack.size := h.regs .rsp

theorem reg_of_ne (h : L.Shows ⟨regs, flags, stack, heap, taken⟩ c) (hr : r ≠ .rsp) : c.regs r = regs r :=
  (h.regs r).trans (if_neg hr)

theorem set (h : L.Shows ⟨regs, flags, stack, heap, taken⟩ c) (hr : r ≠ .rsp) (w : Word) :
    L.Shows ⟨setReg regs r w, flags, stack, heap, taken⟩ (c.set r w) where
  regs r' := by
    have hr' := h.regs r'
    simp only [reg] at hr' ⊢
    by_cases hrr : r' = r
    · subst hrr
      rw [Cpu.set_self, if_neg hr, setReg_self]
    · rw [Cpu.set_other hrr, setReg_other hrr, hr']
  flags := h.flags
  taken := h.taken
  slots := h.slots
  cells := h.cells
  mapped := h.mapped
  words := h.words

theorem flagged (h : L.Shows ⟨regs, flags, stack, heap, taken⟩ c) (f : Option Flags) :
    L.Shows ⟨regs, f, stack, heap, taken⟩ (c.flagged f) where
  regs := h.regs
  flags := rfl
  taken := h.taken
  slots := h.slots
  cells := h.cells
  mapped := h.mapped
  words := h.words

/-- a smaller stack -/
theorem shrink (h : L.Shows ⟨regs, flags, stack, heap, taken⟩ c) {n : Nat} (hn : n ≤ stack.size) :
    L.Shows ⟨regs, flags, stack.take n, heap, taken⟩ (c.set .rsp (L.top n)) where
  regs r := by
    have hr := h.regs r
    simp only [reg] at hr ⊢
    by_cases hrsp : r = .rsp
    · subst hrsp
      rw [Cpu.set_self, if_pos rfl]
      simp [hn]
    · rw [Cpu.set_other hrsp, hr, if_neg hrsp, if_neg hrsp]
  flags := h.flags
  taken := h.taken
  slots := by
    have := h.slots
    simp only [Array.take_eq_extract, Array.size_extract] at this ⊢
    omega
  cells := h.cells
  mapped := h.mapped
  words x w hx := by
    refine h.words x w ?_
    cases x with
    | cell j => exact hx
    | slot i =>
      simp only [Picture.at, Array.take_eq_extract, Array.getElem?_extract] at hx ⊢
      split at hx
      · simpa using hx
      · cases hx

/-- the stack takes in words that lie under it -/
theorem extend (h : L.Shows ⟨regs, flags, stack, heap, taken⟩ c) (ws : Array Word)
    (hroom : stack.size + ws.size ≤ L.slots)
    (hws : ∀ j w, ws[j]? = some w → c.mem.read (L.address (.slot (stack.size + j))) = some w) :
    L.Shows ⟨regs, flags, stack ++ ws, heap, taken⟩ (c.set .rsp (L.top (stack.size + ws.size))) where
  regs r := by
    have hr := h.regs r
    simp only [reg] at hr ⊢
    by_cases hrsp : r = .rsp
    · subst hrsp
      rw [Cpu.set_self, if_pos rfl, Array.size_append]
    · rw [Cpu.set_other hrsp, hr, if_neg hrsp, if_neg hrsp]
  flags := h.flags
  taken := h.taken
  slots := by simpa using hroom
  cells := h.cells
  mapped := h.mapped
  words x w hx := by
    cases x with
    | cell j => exact h.words (.cell j) w hx
    | slot i =>
      simp only [Picture.at, Array.getElem?_append] at hx
      by_cases hi : i < stack.size
      · rw [if_pos hi] at hx
        exact h.words (.slot i) w hx
      · rw [if_neg hi] at hx
        have := hws _ w hx
        rwa [Nat.add_sub_cancel' (Nat.le_of_not_lt hi)] at this

/-- a write to a place that the picture has -/
theorem write (h : L.Shows p c) (hx : (p.at x).isSome) (w : Word) : L.Shows (p.put w x) (c.write (L.address x) w) := by
  obtain ⟨v, hv⟩ := Option.isSome_iff_exists.1 hx
  have hat : ∀ y u, (p.put w x).at y = some u → y = x ∧ u = w ∨ y ≠ x ∧ p.at y = some u := by
    intro y u hy
    cases x <;> cases y <;> simp only [Picture.put, Picture.at, Array.getElem?_setIfInBounds] at hy ⊢ <;> grind
  refine ⟨fun r => ?_, ?_, ?_, ?_, ?_, fun i hi => ?_, fun y u hy => ?_⟩
  · have hr := h.regs r
    cases x <;> simpa [Picture.put, reg] using hr
  · cases x <;> exact h.flags
  · cases x <;> exact h.taken
  · cases x <;> simpa [Picture.put] using h.slots
  · cases x <;> simpa [Picture.put] using h.cells
  · refine Bytes.isSome_read_store (h.mapped i hi) ?_
    by_cases hxi : x = .slot i
    · exact .inl (by rw [hxi])
    · exact .inr (apart (h.has hv) hi hxi)
  · rcases hat y u hy with ⟨rfl, rfl⟩ | ⟨hne, hy⟩
    · exact Bytes.read_store _ _ _
    · exact (Bytes.read_store_apart (apart (h.has hv) (h.has hy) hne.symm)).trans (h.words y u hy)

/-- a write to a place that the picture does not have -/
theorem write_free (h : L.Shows p c) (hx : L.Has x) (hnone : p.at x = none) (w : Word) :
    L.Shows p (c.write (L.address x) w) where
  regs := h.regs
  flags := h.flags
  taken := h.taken
  slots := h.slots
  cells := h.cells
  mapped i hi := by
    refine Bytes.isSome_read_store (h.mapped i hi) ?_
    by_cases hxi : x = .slot i
    · exact .inl (by rw [hxi])
    · exact .inr (apart hx hi hxi)
  words y u hy := by
    refine (Bytes.read_store_apart (apart hx (h.has hy) fun hxy => ?_)).trans (h.words y u hy)
    rw [hxy, hy] at hnone
    cases hnone

theorem rsp_sub_eight (h : L.Shows ⟨regs, flags, stack, heap, taken⟩ c) :
    c.regs .rsp - 8 = L.address (.slot stack.size) := by
  rw [h.rsp]
  exact (under_sub _ 8).trans (congrArg L.under (by dsimp only; ring))

theorem push (h : L.Shows ⟨regs, flags, stack, heap, taken⟩ c) (hroom : stack.size < L.slots) (w : Word) :
    L.Shows ⟨regs, flags, stack.push w, heap, taken⟩ (c.pushed w) := by
  have hfree := h.write_free (x := .slot stack.size) hroom (Array.getElem?_eq_none le_rfl) w
  have hextend := hfree.extend #[w] hroom fun j u hj => by
    cases j with
    | zero =>
      cases hj
      exact Bytes.read_store _ _ _
    | succ j => cases hj
  have htop : L.top (stack.size + #[w].size) = c.regs .rsp - 8 := by
    rw [h.rsp_sub_eight]
    exact congrArg L.under (by simp)
  rw [htop, Array.append_singleton] at hextend
  rw [← h.rsp_sub_eight] at hextend
  exact hextend

/-- the word that rsp points at -/
theorem read_top (h : L.Shows ⟨regs, flags, stack.push w, heap, taken⟩ c) : c.mem.read (c.regs .rsp) = some w := by
  have haddress : c.regs .rsp = L.address (.slot stack.size) := h.rsp.trans (congrArg L.under (by simp))
  rw [haddress]
  exact h.words (.slot stack.size) w (by simp [Picture.at])

theorem drop_top (h : L.Shows ⟨regs, flags, stack.push w, heap, taken⟩ c) :
    L.Shows ⟨regs, flags, stack, heap, taken⟩ (c.set .rsp (c.regs .rsp + 8)) := by
  have htop : L.top stack.size = c.regs .rsp + 8 := by
    rw [h.rsp]
    exact ((under_add _ 8).trans (congrArg L.under (by simp; ring))).symm
  have htake : (stack.push w).take stack.size = stack := by simp
  have hshrink := h.shrink (n := stack.size) (by simp)
  rwa [htop, htake] at hshrink

theorem pop (h : L.Shows ⟨regs, flags, stack.push w, heap, taken⟩ c) (hr : r ≠ .rsp) :
    L.Shows ⟨setReg regs r w, flags, stack, heap, taken⟩ (c.popped r w) := h.drop_top.set hr w

end Shows
end Layout
end ThreeMachines.Native
