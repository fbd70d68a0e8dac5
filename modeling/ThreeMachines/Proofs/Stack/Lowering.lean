/-
Native code of the stack machine does what the machine does.

The native stack is the machine's stack upside down: the word at the machine's address `a` lies at `rbx - a`, rsp points
at the top, and rbp holds the frame pointer as it is. Memory under the stack may hold anything. The one place where this
shows is `alloc`: the machine pushes zeros where the code only moves rsp (`Op.Cleared`).

- `leads_own`: each operation that succeeds is carried out by its code.
-/
import ThreeMachines.Stack.Native
import ThreeMachines.Proofs.Native.Snippets
import ThreeMachines.Proofs.Stack.Operations

namespace ThreeMachines.Stack

open Native Layout

/-- the processor holds a state of the machine -/
structure Represents (L : Layout) (s : State Registers) (c : Cpu) : Prop where
  rbx : c.regs .rbx = L.address (.slot 0)
  rbp : c.regs .rbp = word s.regs.fp
  rsp : c.regs .rsp = c.regs .rbx - word (8 * s.stack.size - 8)
  room : s.stack.size ≤ L.slots
  mapped : ∀ i : Nat, i < L.slots → (c.mem.read (c.regs .rbx - word (8 * i))).isSome
  words : ∀ (i : Nat) w, s.stack.words[i]? = some w → c.mem.read (c.regs .rbx - word (8 * i)) = some (word w)

/-- amounts are whole words, and not negative -/
def Op.Whole : Op → Prop
  | .alloc bytes => 0 ≤ bytes ∧ wordSize ∣ bytes
  | .slide drop keep => (0 ≤ drop ∧ wordSize ∣ drop) ∧ 0 ≤ keep ∧ wordSize ∣ keep
  | _ => True

/-- the words that `alloc` takes in are 0 already -/
def Op.Cleared (s : State Registers) (c : Cpu) : Op → Prop
  | .alloc bytes =>
    ∀ j : Nat, 8 * (j : Int) < bytes → c.mem.read (c.regs .rbx - word (8 * (s.stack.size + j))) = some 0
  | _ => True

/-- the frame pointer is an address of the stack, or the one before them -/
def Framed (s : State Registers) : Prop := ∃ k ≤ s.stack.size, s.regs.fp = 8 * (k : Int) - 8

/-- a picture of a state -/
structure Depicts (L : Layout) (s : State Registers) (p : Picture) : Prop where
  stack : p.stack = L.drawn ∅ s.stack.words
  rbx : p.regs .rbx = L.under 8
  rbp : p.regs .rbp = word s.regs.fp

section
variable {L : Layout} {s : State Registers} {c : Cpu} {p : Picture}

theorem slot_under (h : c.regs .rbx = L.address (.slot 0)) (i : Nat) :
    c.regs .rbx - word (8 * i) = L.address (.slot i) := by
  rw [h]
  exact (under_sub _ _).trans (congrArg L.under (by push_cast; ring))

theorem Represents.shows (h : Represents L s c) :
    L.Shows ⟨c.regs, c.flags, L.drawn ∅ s.stack.words, #[], c.taken⟩ c where
  regs r := by
    by_cases hr : r = .rsp
    · subst hr
      rw [h.rsp, h.rbx]
      exact (under_sub _ _).trans (congrArg L.under (by simp [OperandStack.size]))
    · exact (if_neg hr).symm
  flags := rfl
  taken := rfl
  slots := by rw [size_drawn]; exact h.room
  cells := Nat.zero_le _
  mapped i hi := by
    rw [← slot_under h.rbx]
    exact h.mapped i hi
  words x w hx := by
    cases x with
    | cell j => cases hx
    | slot i =>
      rw [← slot_under h.rbx]
      simp only [Picture.at, drawn, Array.getElem?_mapIdx, Finset.notMem_empty, if_false, Option.map_eq_some_iff] at hx
      obtain ⟨v, hv, rfl⟩ := hx
      exact h.words i v hv

theorem Represents.depicts (h : Represents L s c) :
    Depicts L s ⟨c.regs, c.flags, L.drawn ∅ s.stack.words, #[], c.taken⟩ := ⟨rfl, h.rbx, h.rbp⟩

theorem represents_of_shows (h : L.Shows p c) (hp : Depicts L s p) : Represents L s c := by
  have hbx : c.regs .rbx = L.address (.slot 0) := (h.regs .rbx).trans hp.rbx
  have hsize : p.stack.size = s.stack.size := by rw [hp.stack, size_drawn, OperandStack.size]
  refine ⟨hbx, (h.regs .rbp).trans hp.rbp, ?_, hsize ▸ h.slots, fun i hi => ?_, fun i w hw => ?_⟩
  · rw [h.rsp, hbx, hsize]
    exact ((under_sub _ _).trans (congrArg L.under (by simp))).symm
  · rw [slot_under hbx]
    exact h.mapped i hi
  · rw [slot_under hbx]
    refine h.words (.slot i) _ ?_
    rw [Picture.at, hp.stack]
    exact getElem?_drawn hw (Finset.notMem_empty i)

end

/-! ## Pictures of a state -/

namespace Depicts

variable {L : Layout} {m : Memory Registers} {pc pc' q q' i : Nat} {regs regs' : Reg → Word}
  {flags flags' : Option Flags} {stack heap : Array Word} {taken : Nat} {w : Int}

theorem size_stack (h : Depicts L (m.at_ pc q) ⟨regs, flags, stack, heap, taken⟩) : stack.size = m.words.size := by
  have hstack : stack = L.drawn ∅ m.words := h.stack
  rw [hstack, size_drawn]

theorem slot (h : Depicts L (m.at_ pc q) ⟨regs, flags, stack, heap, taken⟩) (hw : m.words[i]? = some w) :
    stack[i]? = some (word w) := by
  have hstack : stack = L.drawn ∅ m.words := h.stack
  rw [hstack, getElem?_drawn hw (Finset.notMem_empty i)]

/-- other registers, flags and places in the code -/
theorem keeps (h : Depicts L (m.at_ pc q) ⟨regs, flags, stack, heap, taken⟩) (hkeeps : Keeps regs regs') :
    Depicts L (m.at_ pc' q') ⟨regs', flags', stack, heap, taken⟩ :=
  ⟨h.stack, hkeeps.rbx.trans h.rbx, hkeeps.rbp.trans h.rbp⟩

theorem push (h : Depicts L (m.at_ pc q) ⟨regs, flags, stack, heap, taken⟩) (w : Int) :
    Depicts L ((m.push w).at_ pc q) ⟨regs, flags, stack.push (word w), heap, taken⟩ := by
  have hstack : stack = L.drawn ∅ m.words := h.stack
  refine ⟨?_, h.rbx, h.rbp⟩
  rw [Memory.at_words, Memory.push_words, drawn_push (Finset.notMem_empty _), hstack]

theorem pop (h : Depicts L ((m.push w).at_ pc q) ⟨regs, flags, stack, heap, taken⟩) :
    ∃ stack', stack = stack'.push (word w) ∧ Depicts L (m.at_ pc q) ⟨regs, flags, stack', heap, taken⟩ := by
  have hstack : stack = L.drawn ∅ (m.words.push w) := h.stack
  rw [drawn_push (Finset.notMem_empty _)] at hstack
  exact ⟨_, hstack, rfl, h.rbx, h.rbp⟩

theorem write (h : Depicts L (m.at_ pc q) ⟨regs, flags, stack, heap, taken⟩) (i : Nat) (w : Int) :
    Depicts L ((m.write i w).at_ pc q) ⟨regs, flags, stack.setIfInBounds i (word w), heap, taken⟩ := by
  have hstack : stack = L.drawn ∅ m.words := h.stack
  refine ⟨?_, h.rbx, h.rbp⟩
  rw [Memory.at_words, Memory.write, drawn_set (Finset.notMem_empty i), hstack]

end Depicts

/-! ## Operations -/

theorem slot_ok {a : Int} {i : Nat} (h : slot a = .ok i) : a = 8 * i := by
  by_cases ha : 0 ≤ a ∧ a % wordSize = 0
  · rw [slot, if_pos ha] at h
    cases h
    simp only [wordSize] at ha ⊢
    omega
  · rw [slot, if_neg ha] at h
    cases h

theorem popTimes_ok {m : Memory Registers} {pc r n : Nat} {s : State Registers} {ks : List Int}
    (h : Exec.popTimes n (m.at_ pc r) = .ok ks s) :
    ∃ m' : Memory Registers, m = m'.pushes ks.reverse ∧ ks.length = n ∧ s = m'.at_ pc r := by
  induction n generalizing m ks with
  | zero =>
    cases h
    exact ⟨m, rfl, rfl, rfl⟩
  | succ n ih =>
    obtain ⟨m₁, w, rfl, h₁⟩ := Exec.pop_bind h
    obtain ⟨ks', t, htimes, hpure⟩ := bind_ok h₁
    cases hpure
    obtain ⟨m', rfl, rfl, rfl⟩ := ih htimes
    exact ⟨m', by simp, rfl, rfl⟩

theorem pushAll_at (m : Memory Registers) (ks : List Int) {pc r : Nat} :
    Exec.pushAll ks (m.at_ pc r) = .ok () ((m.pushes ks.reverse).at_ pc r) := by
  induction ks with
  | nil => rfl
  | cons k ks ih =>
    rw [Exec.pushAll, bind_apply, ih, List.reverse_cons, Memory.pushes_append]
    rfl

section
variable {L : Layout} {env : Surroundings} {regs : Reg → Word} {flags : Option Flags} {stack heap : Array Word}
  {taken : Nat} {rest : Asm} {Q : Outcome → Prop}

/-- words move over as many as are dropped, the lowest one first -/
theorem leads_moveWords (us junk kept : List Word)
    (hrest : ∀ regs' junk', Keeps regs regs' → junk'.length = junk.length →
      L.Leads env ⟨regs', flags, (us ++ kept ++ junk').toArray, heap, taken⟩ rest Q) :
    L.Leads env ⟨regs, flags, (us ++ junk ++ kept).toArray, heap, taken⟩
      (plain (moveWords (8 * junk.length) kept.length) ++ rest) Q := by
  induction kept generalizing us junk regs with
  | nil => simpa [moveWords] using hrest regs junk (Keeps.refl regs) rfl
  | cons k kept ih =>
    -- the place of the word is the first that is dropped, or its own
    obtain ⟨junk', hlength, hset⟩ : ∃ junk', junk'.length = junk.length ∧
        (us ++ junk ++ k :: kept).set us.length k = us ++ [k] ++ junk' ++ kept := by
      cases junk with
      | nil => exact ⟨[], rfl, by simp⟩
      | cons g gs => exact ⟨gs ++ [k], by simp, by simp⟩
    have hcode : L.Leads env ⟨setReg regs .rax k, flags, (us ++ [k] ++ junk' ++ kept).toArray, heap, taken⟩
        (plain (moveWords (8 * junk'.length) kept.length) ++ rest) Q :=
      ih (us ++ [k]) junk' fun regs' junk'' hkeeps hlength' => by
        have := hrest regs' junk'' ⟨hkeeps.rbx, hkeeps.rbp, hkeeps.r12, hkeeps.r13, hkeeps.r14⟩ (hlength'.trans hlength)
        simpa using this
    rw [hlength] at hcode
    refine leads_mov (by decide) (gives_mem (x := .slot (us.length + junk.length)) (w := k)
      (locate_onStack (k := kept.length) (by simp; omega)) (by simp [Picture.at])) (leads_store (x := .slot us.length)
      (w := k) ?_ (by simp [Picture.at]) (gives_reg rfl) ?_)
    · have hlocate : L.locate ⟨setReg regs .rax k, flags, (us ++ junk ++ k :: kept).toArray, heap, taken⟩
          (Snippet.onStack (8 * (junk.length + kept.length : Nat))) = L.address (.slot us.length) :=
        locate_onStack (by simp; omega)
      rw [Nat.cast_add, mul_add] at hlocate
      exact hlocate
    · have hput : (us ++ junk ++ k :: kept).toArray.setIfInBounds us.length k = (us ++ [k] ++ junk' ++ kept).toArray := by
        rw [← hset, List.setIfInBounds_toArray]
      rw [Picture.put, hput]
      exact hcode

/-- rcx becomes the native address of the word whose machine address is in rax -/
theorem leads_locate {i : Nat} (hrbx : regs .rbx = L.under 8) (hrax : regs .rax = word (8 * i))
    (hrest : ∀ regs', Keeps regs regs' → regs' .rcx = L.address (.slot i) →
      L.Leads env ⟨regs', none, stack, heap, taken⟩ rest Q) :
    L.Leads env ⟨regs, flags, stack, heap, taken⟩ (plain locate ++ rest) Q := by
  refine leads_mov (by decide) (gives_reg rfl) (leads_arith (by decide) (gives_reg rfl) (hrest _ ?_ ?_))
  · exact ((Keeps.refl regs).set (by decide) _).set (by decide) _
  · rw [setReg_self, Arith.eval]
    refine (congrArg₂ (· - ·) hrbx hrax).trans ((under_sub _ _).trans (congrArg L.under ?_))
    ring

/-- a register holds the native address of a word -/
theorem locate_register {p : Picture} {r : Reg} {i : Nat} (hr : L.reg p r = L.address (.slot i)) :
    L.locate p ⟨r, 0⟩ = L.address (.slot i) := locate_under hr (Int.sub_zero _)

section
variable {image : Image Op} {m : Memory Registers} {s : State Registers} {op : Op} {pc r q : Nat} {p : Picture}

/-- there is room for a word that has been pushed -/
theorem room_of_push {w : Int} (hp : Depicts L (m.at_ pc q) ⟨regs, flags, stack, heap, taken⟩)
    (hroom : ((m.push w).at_ (pc + 1) r).stack.size ≤ L.slots) : stack.size < L.slots := by
  rw [hp.size_stack]
  simpa [Nat.succ_le_iff] using hroom

section
variable (henv : Surrounds image pc env) (hp : Depicts L (m.at_ pc q) p)
include henv hp

theorem lowers_load (h : exec image .load (m.at_ (pc + 1) r) = .ok () s) (hroom : s.stack.size ≤ L.slots) :
    L.Leads env p (lower .load) (L.Leaves (word (Image.base + s.pc)) (Depicts L s)) := by
  obtain ⟨regs, flags, stack, heap, taken⟩ := p
  obtain ⟨m', a, rfl, h₁⟩ := Exec.pop_bind h
  obtain ⟨i, hi, h₂⟩ := Exec.check_bind h₁
  obtain ⟨w, hw, h₃⟩ := Exec.getAt_bind h₂
  obtain rfl := slot_ok hi
  rw [Exec.push_at] at h₃
  cases h₃
  obtain ⟨stack, rfl, hp'⟩ := hp.pop
  rw [lower, plain_append, plain_append, List.append_assoc]
  refine leads_pop (by decide) (leads_locate hp'.rbx rfl fun regs' hkeeps hrcx => leads_push (w := word w)
    (gives_mem (x := .slot i) (locate_register hrcx) (hp'.slot hw)) (room_of_push hp' hroom) (leads_done henv ?_))
  exact (hp'.push w).keeps (((Keeps.refl regs).set (by decide) _).trans hkeeps)

theorem lowers_store (h : exec image .store (m.at_ (pc + 1) r) = .ok () s) :
    L.Leads env p (lower .store) (L.Leaves (word (Image.base + s.pc)) (Depicts L s)) := by
  obtain ⟨regs, flags, stack, heap, taken⟩ := p
  obtain ⟨m₁, a, rfl, h₁⟩ := Exec.pop_bind h
  obtain ⟨m', w, rfl, h₂⟩ := Exec.top_bind h₁
  obtain ⟨i, hi, h₃⟩ := Exec.check_bind h₂
  obtain ⟨hlt, rfl⟩ := Exec.setAt_ok h₃
  obtain rfl := slot_ok hi
  obtain ⟨stack, rfl, hp'⟩ := hp.pop
  have hsize : stack.size = m'.words.size + 1 := hp'.size_stack.trans (by simp)
  rw [lower, plain_append, plain_append, List.append_assoc]
  refine leads_pop (by decide) (leads_locate hp'.rbx rfl fun regs' hkeeps hrcx => leads_mov (by decide)
    (gives_mem (x := .slot m'.words.size) (w := word w) (locate_onStack (k := 0) (by omega)) (hp'.slot (by simp)))
    (leads_store (x := .slot i) (w := word w) (locate_register hrcx) ?_ (gives_reg rfl) (leads_done henv ?_)))
  · rw [Picture.at, Option.isSome_iff_exists]
    exact ⟨_, hp'.slot (Array.getElem?_eq_getElem hlt)⟩
  · exact (hp'.write i w).keeps ((((Keeps.refl regs).set (by decide) _).trans hkeeps).set (by decide) _)

theorem lowers_loadrc {offset : Int} (h : exec image (.loadrc offset) (m.at_ (pc + 1) r) = .ok () s)
    (hroom : s.stack.size ≤ L.slots) :
    L.Leads env p (lower (.loadrc offset)) (L.Leaves (word (Image.base + s.pc)) (Depicts L s)) := by
  obtain ⟨regs, flags, stack, heap, taken⟩ := p
  simp only [exec, bind_apply, Exec.registers_at, Exec.push_at] at h
  cases h
  have hrax : regs .rbp + word offset = word (m.regs.fp + offset) :=
    (congrArg (· + word offset) hp.rbp).trans (word_add _ _).symm
  refine leads_mov (by decide) (gives_reg rfl) (leads_arith (by decide) (gives_imm offset)
    (leads_push (w := word (m.regs.fp + offset)) (gives_reg hrax) (room_of_push hp hroom) (leads_done henv ?_)))
  exact (hp.push _).keeps (((Keeps.refl regs).set (by decide) _).set (by decide) _)

theorem lowers_enter (h : exec image .enter (m.at_ (pc + 1) r) = .ok () s) :
    L.Leads env p (lower .enter) (L.Leaves (word (Image.base + s.pc)) (Depicts L s)) := by
  obtain ⟨regs, flags, stack, heap, taken⟩ := p
  simp only [exec, setFp, bind_apply, Exec.stackSize_at, Exec.setRegisters_at] at h
  cases h
  refine leads_mov (by decide) (gives_reg rfl) (leads_arith (by decide) (gives_reg rfl)
    (leads_done henv ⟨hp.stack, hp.rbx, ?_⟩))
  refine (congrArg (· - L.top stack.size) hp.rbx).trans ((under_sub_under _ _).trans (congrArg word ?_))
  simp [wordSize, hp.size_stack]
  ring

theorem lowers_mark (h : exec image .mark (m.at_ (pc + 1) r) = .ok () s) (hroom : s.stack.size ≤ L.slots) :
    L.Leads env p (lower .mark) (L.Leaves (word (Image.base + s.pc)) (Depicts L s)) := by
  obtain ⟨regs, flags, stack, heap, taken⟩ := p
  simp only [exec, bind_apply, Exec.registers_at, Exec.push_at] at h
  cases h
  exact leads_push (w := word m.regs.fp) (gives_reg hp.rbp) (room_of_push hp hroom)
    (leads_done henv ((hp.push _).keeps (Keeps.refl regs)))

theorem lowers_call (h : exec image .call (m.at_ (pc + 1) r) = .ok () s) (hroom : s.stack.size ≤ L.slots) :
    L.Leads env p (lower .call) (L.Leaves (word (Image.base + s.pc)) (Depicts L s)) := by
  obtain ⟨regs, flags, stack, heap, taken⟩ := p
  obtain ⟨m', a, rfl, h₁⟩ := Exec.pop_bind h
  simp only [bind_apply, Exec.next_at, Exec.push_at] at h₁
  obtain ⟨target, htarget, h₂⟩ := Exec.check_bind h₁
  obtain rfl := Image.pcOf_ok htarget
  rw [Exec.jumpTo_at] at h₂
  cases h₂
  obtain ⟨stack, rfl, hp'⟩ := hp.pop
  refine leads_pop (by decide) (leads_callReg (by decide) rfl (room_of_push hp' hroom) ?_)
  rw [henv.next]
  exact (hp'.push _).keeps ((Keeps.refl regs).set (by decide) _)

theorem lowers_slide {drop keep : Int} (hwhole : (Op.slide drop keep).Whole)
    (h : exec image (.slide drop keep) (m.at_ (pc + 1) r) = .ok () s) :
    L.Leads env p (lower (.slide drop keep)) (L.Leaves (word (Image.base + s.pc)) (Depicts L s)) := by
  obtain ⟨regs, flags, stack, heap, taken⟩ := p
  obtain ⟨hstack, hrbx, hrbp⟩ := hp
  obtain ⟨⟨hdrop, d, rfl⟩, hkeep, k, rfl⟩ := hwhole
  obtain ⟨d, rfl⟩ := Int.eq_ofNat_of_zero_le (show 0 ≤ d by simp only [wordSize] at hdrop; omega)
  obtain ⟨k, rfl⟩ := Int.eq_ofNat_of_zero_le (show 0 ≤ k by simp only [wordSize] at hkeep; omega)
  simp only [exec, words_tdiv] at h
  obtain ⟨ks, t, hpop, h₁⟩ := bind_ok h
  obtain ⟨m₁, rfl, rfl, rfl⟩ := popTimes_ok hpop
  obtain ⟨_, t, hdrop', h₂⟩ := bind_ok h₁
  obtain ⟨m', ds, rfl, rfl, rfl⟩ := Exec.drop_ok hdrop'
  rw [pushAll_at] at h₂
  cases h₂
  have hnone (m : Memory Registers) : ∀ i ∈ (∅ : Finset Nat), i < m.words.size := fun i hi =>
    absurd hi (Finset.notMem_empty i)
  have hwords : stack = ((L.drawn ∅ m'.words).toList ++ ds.map word ++ ks.reverse.map word).toArray := by
    rw [show stack = _ from hstack, Memory.at_words, drawn_pushes _ _ (hnone _), drawn_pushes _ _ (hnone _)]
    simp
  have hcode : lower (.slide (wordSize * ds.length) (wordSize * ks.length)) =
      plain (moveWords (8 * (ds.map word).length) (ks.reverse.map word).length) ++
        plain [.arith .add .rsp (.imm (8 * ds.length))] := by
    rw [lower, words_tdiv, plain_append, List.length_map, List.length_map, List.length_reverse, wordSize]
  rw [hwords, hcode]
  refine leads_moveWords _ _ _ fun regs' junk' hkeeps hlength => leads_drop (n := m'.words.size + ks.length)
    (k := ds.length) (by simp [hlength, Nat.add_assoc]) (leads_done henv ⟨?_, hkeeps.rbx.trans hrbx, hkeeps.rbp.trans ?_⟩)
  · rw [Memory.at_words, drawn_pushes _ _ (hnone _)]
    simp [List.take_append]
  · simpa using hrbp

end

/-- what a return that succeeds has found: the caller's frame pointer and the return address under it -/
theorem ret_ok (h : exec image .ret (m.at_ (pc + 1) r) = .ok () s) :
    ∃ (m' : Memory Registers) (j target : Nat) (fp : Int), m.regs.fp = 8 * j ∧
      m.words.take (j + 1) = (m'.words.push fp).push (Image.base + target) ∧
      s = Memory.at_ { m'.push fp with regs := ⟨fp⟩ } target r := by
  simp only [exec, bind_apply, Exec.registers_at] at h
  obtain ⟨j, hj, h₁⟩ := Exec.check_bind h
  simp only [Exec.truncate_at] at h₁
  obtain ⟨m₁, back, hm, h₂⟩ := Exec.pop_bind h₁
  obtain ⟨m', fp, rfl, h₃⟩ := Exec.top_bind h₂
  simp only [setFp, Exec.setRegisters_at] at h₃
  obtain ⟨target, htarget, h₄⟩ := Exec.check_bind h₃
  obtain rfl := Image.pcOf_ok htarget
  rw [Exec.jumpTo_at] at h₄
  cases h₄
  exact ⟨m', j, target, fp, slot_ok hj, congrArg Memory.words hm, rfl⟩

theorem lowers_ret (hp : Depicts L (m.at_ pc q) p) (hframed : Framed (m.at_ pc q))
    (h : exec image .ret (m.at_ (pc + 1) r) = .ok () s) :
    L.Leads env p (lower .ret) (L.Leaves (word (Image.base + s.pc)) (Depicts L s)) := by
  obtain ⟨regs, flags, stack, heap, taken⟩ := p
  obtain ⟨m', j, target, fp, hfp, hwords, rfl⟩ := ret_ok h
  obtain ⟨k, hk, hframe⟩ := hframed
  simp only [Memory.at_size, Memory.at_regs, hfp] at hk hframe
  have hsize : j + 1 ≤ stack.size := by
    rw [hp.size_stack]
    omega
  have hstack : stack.take (j + 1) = ((L.drawn ∅ m'.words).push (word fp)).push (word (Image.base + target)) := by
    rw [show stack = L.drawn ∅ m.words from hp.stack, ← drawn_take, hwords, drawn_push (Finset.notMem_empty _),
      drawn_push (Finset.notMem_empty _)]
  have htop : regs .rbx - regs .rbp = L.top (j + 1) := by
    refine (congrArg₂ (· - ·) hp.rbx (hp.rbp.trans (congrArg word hfp))).trans ((under_sub _ _).trans ?_)
    exact congrArg L.under (by push_cast; ring)
  refine leads_subTop hsize (by decide) (by decide) htop ?_
  rw [hstack]
  refine leads_mov (by decide) (gives_mem (x := .slot (L.drawn ∅ m'.words).size) (locate_onStack (k := 1) (by simp))
    (getElem?_push_push _ _ _)) (leads_ret ⟨?_, hp.rbx, rfl⟩)
  exact (drawn_push (Finset.notMem_empty _)).symm

/-- **Operations.** The code of an operation that succeeds does what the operation does; `alloc` comes after it. -/
theorem leads_own (henv : Surrounds image pc env) (hp : Depicts L (m.at_ pc q) p) (hframed : Framed (m.at_ pc q))
    (hwhole : op.Whole) (halloc : ∀ bytes, op ≠ .alloc bytes) (h : exec image op (m.at_ (pc + 1) r) = .ok () s)
    (hroom : s.stack.size ≤ L.slots) :
    L.Leads env p (lower op) (L.Leaves (word (Image.base + s.pc)) (Depicts L s)) := by
  cases op with
  | load => exact lowers_load henv hp h hroom
  | store => exact lowers_store henv hp h
  | loadrc offset => exact lowers_loadrc henv hp h hroom
  | enter => exact lowers_enter henv hp h
  | alloc bytes => exact absurd rfl (halloc bytes)
  | mark => exact lowers_mark henv hp h hroom
  | call => exact lowers_call henv hp h hroom
  | ret => exact lowers_ret hp hframed h
  | slide drop keep => exact lowers_slide henv hp hwhole h

end

/-- the words that `alloc` takes in -/
theorem run_alloc {image : Image Op} {m : Memory Registers} {s : State Registers} {pc r q : Nat} {bytes : Int} {c : Cpu}
    (henv : Surrounds image pc env) (hc : Represents L (m.at_ pc q) c) (hwhole : (Op.alloc bytes).Whole)
    (hclear : (Op.alloc bytes).Cleared (m.at_ pc q) c) (h : exec image (.alloc bytes) (m.at_ (pc + 1) r) = .ok () s)
    (hroom : s.stack.size ≤ L.slots) :
    L.Leaves (word (Image.base + s.pc)) (Depicts L s) (run env (lower (.alloc bytes)) c) := by
  obtain ⟨hbytes, n, rfl⟩ := hwhole
  obtain ⟨n, rfl⟩ := Int.eq_ofNat_of_zero_le (show 0 ≤ n by simp only [wordSize] at hbytes; omega)
  rw [exec, words_tdiv, pushTimes_at] at h
  cases h
  have htop : c.regs .rsp - word (wordSize * n) = L.top (m.words.size + n) := by
    rw [hc.shows.rsp]
    exact (under_sub _ _).trans (congrArg L.under (by simp [wordSize]; ring))
  have hrun : run env (lower (.alloc (wordSize * n))) c =
      .jump env.next ((c.set .rsp (L.top (m.words.size + n))).flagged none) := by
    rw [lower, plain_cons, run_next fun _ => rfl, plain_nil, run_nil, Arith.eval, htop]
  have hextend := (hc.shows.extend (Array.replicate n 0) (by simpa [Memory.pushes_words] using hroom)
    fun j w hj => ?_).flagged none
  · rw [size_drawn, Array.size_replicate, Memory.at_words] at hextend
    refine ⟨_, _, hrun.trans (by rw [henv.next]; rfl), hextend, ⟨?_, hc.rbx, hc.rbp.trans (by simp)⟩⟩
    rw [Memory.at_words, drawn_pushes _ _ fun i hi => absurd hi (Finset.notMem_empty i), List.map_replicate,
      List.toArray_replicate]
    rfl
  · obtain ⟨hlt, rfl⟩ := Array.getElem?_eq_some_iff.1 hj
    simp only [Array.size_replicate] at hlt
    have := hclear j (by simp only [wordSize]; omega)
    rw [size_drawn, ← slot_under hc.rbx]
    simpa using this

/-- `idiv` is nowhere in the operations' own code -/
theorem idiv_not_mem (op : Op) (r : Reg) (note : Option String) : .instr (.idiv r) note ∉ lower op := by
  cases op with
  | slide drop keep =>
    have hmove (count : Nat) : Native.Instr.idiv r ∉ moveWords drop count := by
      induction count with
      | zero => simp [moveWords]
      | succ count ih => simpa [moveWords] using ih
    simp [lower, plain, hmove]
  | load | store | loadrc offset | enter | alloc bytes | mark | call | ret => simp [lower, plain, locate]

end

theorem quiet_slot (a : Int) : Exec.Quiet (Exec.check (slot a) : Exec Registers Nat) := by
  refine Exec.Names.quiet fun e h => ?_
  rw [slot] at h
  split_ifs at h
  cases h
  exact Exec.badAddress_quiet _ _

theorem quiet_pushTimes (w : Int) (n : Nat) : Exec.Quiet (Exec.pushTimes w n : Exec Registers Unit) := by
  induction n with
  | zero => exact Exec.quiet_pure ()
  | succ n ih => exact (Exec.quiet_push w).bind fun _ => ih

theorem quiet_popTimes (n : Nat) : Exec.Quiet (Exec.popTimes n : Exec Registers (List Int)) := by
  induction n with
  | zero => exact Exec.quiet_pure []
  | succ n ih => exact Exec.quiet_pop.bind fun _ => ih.bind fun _ => Exec.quiet_pure _

theorem quiet_pushAll (ws : List Int) : Exec.Quiet (Exec.pushAll ws : Exec Registers Unit) := by
  induction ws with
  | nil => exact Exec.quiet_pure ()
  | cons w ws ih => exact ih.bind fun _ => Exec.quiet_push w

theorem quiet_exec (image : Image Op) (op : Op) : Exec.Quiet (exec image op) := by
  cases op with
  | load => exact Exec.quiet_pop.bind fun a => (quiet_slot a).bind fun i => (Exec.quiet_getAt i).bind Exec.quiet_push
  | store =>
    exact Exec.quiet_pop.bind fun a => Exec.quiet_top.bind fun w => (quiet_slot a).bind fun i => Exec.quiet_setAt i w
  | loadrc offset => exact Exec.quiet_registers.bind fun _ => Exec.quiet_push _
  | enter => exact Exec.quiet_stackSize.bind fun _ => Exec.quiet_setRegisters _
  | alloc bytes => exact quiet_pushTimes 0 _
  | mark => exact Exec.quiet_registers.bind fun _ => Exec.quiet_push _
  | call =>
    exact Exec.quiet_pop.bind fun target => Exec.quiet_next.bind fun _ => (Exec.quiet_push _).bind fun _ =>
      (Exec.quiet_pcOf image target).bind Exec.quiet_jumpTo
  | ret =>
    exact Exec.quiet_registers.bind fun _ => (quiet_slot _).bind fun _ => (Exec.quiet_truncate _).bind fun _ =>
      Exec.quiet_pop.bind fun back => Exec.quiet_top.bind fun _ => (Exec.quiet_setRegisters _).bind fun _ =>
      (Exec.quiet_pcOf image back).bind Exec.quiet_jumpTo
  | slide drop keep =>
    exact (quiet_popTimes _).bind fun ws => (Exec.quiet_drop _).bind fun _ => quiet_pushAll ws

end ThreeMachines.Stack
