/-
What an instruction that succeeds has found.

Where `Instructions` and `Blocks` compute the parts of an instruction's work on a memory that fits, the lemmas here go the
other way: a part that succeeds tells what the memory was, and what it is for the rest of the work. A part that fails does
so for want of a word or of a place, never for want of a quotient (`Exec.Quiet`); only `binary` can.
-/
import ThreeMachines.Proofs.Blocks

namespace ThreeMachines

section
variable {ε σ α β : Type}

theorem bind_ok {x : EStateM ε σ α} {f : α → EStateM ε σ β} {s u : σ} {b : β} (h : (x >>= f) s = .ok b u) :
    ∃ a t, x s = .ok a t ∧ f a t = .ok b u := by
  rw [bind_apply] at h
  cases hx : x s with
  | ok a t =>
    rw [hx] at h
    exact ⟨a, t, rfl, h⟩
  | error e t =>
    rw [hx] at h
    cases h

theorem bind_error {x : EStateM ε σ α} {f : α → EStateM ε σ β} {s u : σ} {e : ε} (h : (x >>= f) s = .error e u) :
    x s = .error e u ∨ ∃ a t, x s = .ok a t ∧ f a t = .error e u := by
  rw [bind_apply] at h
  cases hx : x s with
  | ok a t =>
    rw [hx] at h
    exact .inr ⟨a, t, rfl, h⟩
  | error e' t =>
    rw [hx] at h
    cases h
    exact .inl rfl

end

variable {ι ρ α β : Type} {m : Memory ρ} {pc r : Nat} {s t : State ρ} {b : β} {w : Int}

namespace Memory

theorem pushes_size (m : Memory ρ) (as : List Int) : (m.pushes as).words.size = m.words.size + as.length := by
  simp [pushes_words]

/-- the uppermost words of a memory that has so many -/
theorem exists_pushes (m : Memory ρ) {k : Nat} (hk : k ≤ m.words.size) :
    ∃ (m' : Memory ρ) (as : List Int), m = pushes m' as ∧ as.length = k := by
  refine ⟨{ m with words := m.words.take (m.words.size - k) }, m.words.toList.drop (m.words.size - k), ?_, ?_⟩
  · rw [pushes_eq]
    obtain ⟨⟨words⟩, heap, regs⟩ := m
    simp
  · simp
    omega

theorem push_of_onHeap {m m' : Memory ρ} {heap : Heap} {w : Int} (h : m.onHeap heap = m'.push w) :
    m = (m'.onHeap m.heap).push w := by
  rw [← onHeap_push, ← h, onHeap_onHeap]
  rfl

end Memory

/-! ## Places in code -/

theorem Image.addressOf_ok {image : Image ι} {l : Label} {a : Int} (h : image.addressOf l = .ok a) :
    ∃ target, image.target l = .ok target ∧ a = Image.base + target := by
  cases ht : image.target l with
  | error e => simp [Image.addressOf, ht, bind, Except.bind] at h
  | ok target =>
    rw [Image.addressOf_of_target ht] at h
    cases h
    exact ⟨target, rfl, rfl⟩

theorem Image.pcOf_ok {image : Image ι} {a : Int} {target : Nat} (h : image.pcOf a = .ok target) :
    a = Image.base + target := by
  by_cases hin : 0 ≤ a - Image.base ∧ (a - Image.base).toNat < image.instrs.size
  · rw [Image.pcOf, if_pos hin] at h
    cases h
    omega
  · rw [Image.pcOf, if_neg hin] at h
    cases h

namespace Exec

/-! ## The stack -/

theorem pop_ok (h : pop (m.at_ pc r) = .ok w s) : ∃ m' : Memory ρ, m = m'.push w ∧ s = m'.at_ pc r := by
  obtain ⟨words, heap, regs⟩ := m
  simp only [pop, onStack, OperandStack.pop, Memory.at_] at h
  cases hback : words.back? with
  | none =>
    rw [hback] at h
    cases h
  | some v =>
    rw [hback] at h
    cases h
    obtain ⟨ws, rfl⟩ := Array.back?_eq_some_iff.1 hback
    exact ⟨⟨ws, heap, regs⟩, rfl, by rw [Array.pop_push, Memory.at_]⟩

theorem pop_bind {f : Int → Exec ρ β} (h : (pop >>= f) (m.at_ pc r) = .ok b s) :
    ∃ (m' : Memory ρ) (w : Int), m = m'.push w ∧ f w (m'.at_ pc r) = .ok b s := by
  obtain ⟨w, t, hpop, h⟩ := bind_ok h
  obtain ⟨m', hm, rfl⟩ := pop_ok hpop
  exact ⟨m', w, hm, h⟩

theorem getAt_ok {i : Nat} (h : getAt i (m.at_ pc r) = .ok w s) : m.words[i]? = some w ∧ s = m.at_ pc r := by
  simp only [getAt, onStack, OperandStack.get, Memory.at_] at h
  cases hi : m.words[i]? with
  | none =>
    rw [hi] at h
    cases h
  | some v =>
    rw [hi] at h
    cases h
    exact ⟨rfl, rfl⟩

theorem getAt_bind {i : Nat} {f : Int → Exec ρ β} (h : (getAt i >>= f) (m.at_ pc r) = .ok b s) :
    ∃ w, m.words[i]? = some w ∧ f w (m.at_ pc r) = .ok b s := by
  obtain ⟨w, t, hget, h⟩ := bind_ok h
  obtain ⟨hw, rfl⟩ := getAt_ok hget
  exact ⟨w, hw, h⟩

theorem setAt_ok {i : Nat} {u : Unit} (h : setAt i w (m.at_ pc r) = .ok u s) :
    i < m.words.size ∧ s = (m.write i w).at_ pc r := by
  by_cases hi : i < m.words.size
  · rw [setAt_at hi] at h
    cases h
    exact ⟨hi, by rw [Memory.write, Array.setIfInBounds, dif_pos hi]⟩
  · simp [setAt, onStack, OperandStack.set, Memory.at_, hi] at h

theorem setAt_bind {i : Nat} {f : Unit → Exec ρ β} (h : (setAt i w >>= f) (m.at_ pc r) = .ok b s) :
    i < m.words.size ∧ f () ((m.write i w).at_ pc r) = .ok b s := by
  obtain ⟨u, t, hset, h⟩ := bind_ok h
  obtain ⟨hi, rfl⟩ := setAt_ok hset
  exact ⟨hi, h⟩

theorem peek_ok {d : Nat} (h : peek d (m.at_ pc r) = .ok w s) :
    ∃ i, d + i + 1 = m.words.size ∧ m.words[i]? = some w ∧ s = m.at_ pc r := by
  by_cases hd : d < m.words.size
  · have hi : m.words.size - 1 - d < m.words.size := by omega
    rw [peek_at (i := m.words.size - 1 - d) (by omega) (Array.getElem?_eq_getElem hi)] at h
    cases h
    exact ⟨m.words.size - 1 - d, by omega, Array.getElem?_eq_getElem hi, rfl⟩
  · simp [peek, onStack, OperandStack.peek, OperandStack.indexFromTop, bind_apply, Memory.at_, hd] at h

theorem peek_bind {d : Nat} {f : Int → Exec ρ β} (h : (peek d >>= f) (m.at_ pc r) = .ok b s) :
    ∃ i w, d + i + 1 = m.words.size ∧ m.words[i]? = some w ∧ f w (m.at_ pc r) = .ok b s := by
  obtain ⟨w, t, hpeek, h⟩ := bind_ok h
  obtain ⟨i, hi, hw, rfl⟩ := peek_ok hpeek
  exact ⟨i, w, hi, hw, h⟩

theorem top_bind {f : Int → Exec ρ β} (h : (top >>= f) (m.at_ pc r) = .ok b s) :
    ∃ (m' : Memory ρ) (w : Int), m = m'.push w ∧ f w (m.at_ pc r) = .ok b s := by
  obtain ⟨i, w, hi, hw, h⟩ := peek_bind (d := 0) h
  obtain ⟨words, heap, regs⟩ := m
  have hback : words.back? = some w := by
    rw [Array.back?_eq_getElem?, ← hw]
    congr 1
    simp only at hi
    omega
  obtain ⟨ws, rfl⟩ := Array.back?_eq_some_iff.1 hback
  exact ⟨⟨ws, heap, regs⟩, w, rfl, h⟩

theorem poke_ok {d : Nat} {u : Unit} (h : poke d w (m.at_ pc r) = .ok u s) :
    ∃ i, d + i + 1 = m.words.size ∧ s = (m.write i w).at_ pc r := by
  by_cases hd : d < m.words.size
  · have hi : m.words.size - 1 - d < m.words.size := by omega
    rw [poke_at (i := m.words.size - 1 - d) (by omega) hi] at h
    cases h
    exact ⟨m.words.size - 1 - d, by omega, by rw [Memory.write, Array.setIfInBounds, dif_pos hi]⟩
  · simp [poke, onStack, OperandStack.poke, OperandStack.indexFromTop, bind_apply, Memory.at_, hd] at h

theorem drop_ok {k : Nat} {u : Unit} (h : drop k (m.at_ pc r) = .ok u s) :
    ∃ (m' : Memory ρ) (as : List Int), m = m'.pushes as ∧ as.length = k ∧ s = m'.at_ pc r := by
  by_cases hk : k ≤ m.words.size
  · obtain ⟨m', as, rfl, rfl⟩ := m.exists_pushes hk
    refine ⟨m', as, rfl, rfl, ?_⟩
    simp [drop, onStack, OperandStack.drop, Memory.at_, Memory.pushes_words] at h
    exact h.symm
  · simp [drop, onStack, OperandStack.drop, Memory.at_, hk] at h

theorem slide_ok {k : Nat} {u : Unit} (h : slide k (m.at_ pc r) = .ok u s) :
    ∃ (m' : Memory ρ) (as : List Int) (w : Int), m = (m'.pushes as).push w ∧ as.length = k ∧ s = (m'.push w).at_ pc r := by
  have hslide : (slide k : Exec ρ Unit) = pop >>= fun w => drop k >>= fun _ => push w := by
    funext ⟨pc, ⟨words, running⟩, heap, regs⟩
    simp only [slide, onStack, OperandStack.slide, bind_apply, pop, drop, push]
    cases OperandStack.pop ⟨words, running⟩ with
    | error e stack => rfl
    | ok w stack =>
      simp only
      cases OperandStack.drop k stack <;> rfl
  rw [hslide] at h
  obtain ⟨m₁, w, rfl, h₁⟩ := pop_bind h
  obtain ⟨_, t, hdrop, hpush⟩ := bind_ok h₁
  obtain ⟨m', as, rfl, hlen, rfl⟩ := drop_ok hdrop
  cases hpush
  exact ⟨m', as, w, rfl, hlen, rfl⟩

/-! ## Look-ups and registers -/

theorem check_bind {found : Except Fault α} {f : α → Exec ρ β} (h : (check found >>= f) s = .ok b t) :
    ∃ a, found = .ok a ∧ f a s = .ok b t := by
  cases found with
  | ok a => exact ⟨a, rfl, h⟩
  | error e => cases h

/-! ## The heap -/

theorem index_ok {heap : Heap} {a : Int} {q : Nat} (h : heap.index a = .ok q) :
    a = Heap.address q ∧ q < heap.words.size := by
  by_cases hin : 0 ≤ a - Heap.base ∧ (a - Heap.base) % wordSize = 0 ∧
      ((a - Heap.base) / wordSize).toNat < heap.words.size
  · rw [Heap.index, if_pos hin] at h
    cases h
    refine ⟨?_, hin.2.2⟩
    simp only [Heap.address, wordSize] at hin ⊢
    omega
  · rw [Heap.index, if_neg hin] at h
    cases h

theorem load_bind {a : Int} {f : Int → Exec ρ β} (h : (load a >>= f) (m.at_ pc r) = .ok b s) :
    ∃ q w, a = Heap.address q ∧ m.heap.words[q]? = some w ∧ f w (m.at_ pc r) = .ok b s := by
  obtain ⟨w, t, hload, h⟩ := bind_ok h
  simp only [load, onHeap, Heap.load, Memory.at_] at hload
  cases hindex : m.heap.index a with
  | error e =>
    rw [hindex] at hload
    cases hload
  | ok q =>
    obtain ⟨ha, hq⟩ := index_ok hindex
    rw [hindex] at hload
    cases hload
    exact ⟨q, _, ha, by rw [Array.getElem?_eq_getElem hq, Option.getD_some], h⟩

theorem store_ok {a : Int} {u : Unit} (h : store a w (m.at_ pc r) = .ok u s) :
    ∃ q, a = Heap.address q ∧ q < m.heap.words.size ∧ s = (m.onHeap (m.heap.set q w)).at_ pc r := by
  cases hindex : m.heap.index a with
  | error e => simp [store, onHeap, Heap.store, Memory.at_, hindex] at h
  | ok q =>
    obtain ⟨rfl, hq⟩ := index_ok hindex
    rw [store_at hq] at h
    cases h
    exact ⟨q, rfl, hq, rfl⟩

theorem store_bind {a : Int} {f : Unit → Exec ρ β} (h : (store a w >>= f) (m.at_ pc r) = .ok b s) :
    ∃ q, a = Heap.address q ∧ q < m.heap.words.size ∧ f () ((m.onHeap (m.heap.set q w)).at_ pc r) = .ok b s := by
  obtain ⟨u, t, hstore, h⟩ := bind_ok h
  obtain ⟨q, ha, hq, rfl⟩ := store_ok hstore
  exact ⟨q, ha, hq, h⟩

theorem copyPair_ok {source dest : Int} {u : Unit} (h : copyPair source dest (m.at_ pc r) = .ok u s) :
    ∃ q p a b, source = Heap.address q ∧ dest = Heap.address p ∧ p + 1 < m.heap.words.size ∧
      m.heap.words[q]? = some a ∧ (m.heap.set p a).words[q + 1]? = some b ∧
      s = (m.onHeap ((m.heap.set p a).set (p + 1) b)).at_ pc r := by
  obtain ⟨q, a, rfl, ha, h⟩ := load_bind h
  obtain ⟨p, rfl, hp, h⟩ := store_bind h
  rw [Heap.address_succ, Heap.address_succ] at h
  obtain ⟨q', b, hq, hb, h⟩ := load_bind h
  obtain ⟨p', hp', hlt, rfl⟩ := store_ok h
  obtain rfl := Heap.address_inj hq
  obtain rfl := Heap.address_inj hp'
  exact ⟨q, p, a, b, rfl, rfl, by simpa using hlt, ha, hb, rfl⟩

theorem fillVector_size {vector : Int} {count : Nat} {u : Unit} (h : fillVector vector count (m.at_ pc r) = .ok u s) :
    count ≤ m.words.size := by
  induction count generalizing m with
  | zero => exact Nat.zero_le _
  | succ count ih =>
    obtain ⟨m', w, rfl, h₁⟩ := pop_bind h
    obtain ⟨q, -, -, h₂⟩ := store_bind h₁
    have hsize := ih h₂
    simpa [Memory.onHeap] using hsize

theorem makeVector_ok {n v : Int} (h : makeVector n (m.at_ pc r) = .ok v s) :
    ∃ (m' : Memory ρ) (as : List Int), m = m'.pushes as ∧ n = as.length ∧ v = Heap.address m.heap.words.size ∧
      s = (m'.onHeap (m.heap.append (as.length :: as))).at_ pc r := by
  have hmake := h
  obtain ⟨count, hcount, h⟩ := check_bind h
  obtain ⟨vector, t, halloc, h⟩ := bind_ok h
  rw [alloc_at] at halloc
  cases halloc
  obtain ⟨q, -, -, h⟩ := store_bind h
  obtain ⟨u, t, hfill, -⟩ := bind_ok h
  have hsize := fillVector_size hfill
  obtain ⟨m', as, rfl, hlen⟩ := m.exists_pushes (k := count) hsize
  have hn : n = as.length := by
    rw [stackOffset] at hcount
    split at hcount
    · cases hcount
      omega
    · cases hcount
  subst hn
  rw [makeVector_at] at hmake
  cases hmake
  exact ⟨m', as, rfl, rfl, by rw [Memory.pushes_heap], by rw [Memory.pushes_heap]⟩

theorem makeFunction_ok {image : Image ι} {body : Label} {v : Int}
    (h : makeFunction image body (m.at_ pc r) = .ok v s) :
    ∃ (m' : Memory ρ) (vector : Int) (code : Nat), m = m'.push vector ∧ image.target body = .ok code ∧
      v = Heap.address m.heap.words.size ∧ s = (m'.onHeap (m.heap.append [Image.base + code, vector])).at_ pc r := by
  have hmake := h
  rw [makeFunction, bind_apply, alloc_at] at h
  obtain ⟨a, ha, h⟩ := check_bind h
  obtain ⟨q, -, -, h⟩ := store_bind h
  obtain ⟨m₁, vector, hm, -⟩ := pop_bind h
  obtain ⟨m', rfl⟩ : ∃ m' : Memory ρ, m = m'.push vector := ⟨_, Memory.push_of_onHeap hm⟩
  obtain ⟨code, ht, -⟩ := Image.addressOf_ok ha
  rw [makeFunction_at m' vector ht] at hmake
  cases hmake
  exact ⟨m', vector, code, rfl, ht, rfl, rfl⟩

/-! ## Faults -/

theorem stackUnderflow_quiet (pc : Nat) :
    Fault.stackUnderflow pc ≠ .divisionByZero ∧ Fault.stackUnderflow pc ≠ .overflow := ⟨nofun, nofun⟩

theorem badAddress_quiet (a : Int) (place : Place) :
    Fault.badAddress a place ≠ .divisionByZero ∧ Fault.badAddress a place ≠ .overflow := ⟨nofun, nofun⟩

theorem unknownLabel_quiet (text : String) :
    Fault.unknownLabel text ≠ .divisionByZero ∧ Fault.unknownLabel text ≠ .overflow := ⟨nofun, nofun⟩

/-- the work never fails for want of a quotient -/
def Quiet (x : Exec ρ α) : Prop := ∀ s e t, x s = .error e t → e ≠ .divisionByZero ∧ e ≠ .overflow

variable {x : Exec ρ α} {f : α → Exec ρ β}

theorem quiet_pure (a : α) : Quiet (pure a : Exec ρ α) := fun _ _ _ h => by cases h

theorem Quiet.bind (hx : Quiet x) (hf : ∀ a, Quiet (f a)) : Quiet (x >>= f) := by
  intro s e t h
  rcases bind_error h with h | ⟨a, u, -, h⟩
  · exact hx s e t h
  · exact hf a u e t h

/-- work on a stack fails for want of a word only -/
def Underflows (step : StackM α) : Prop := ∀ s e t, step s = .error e t → ∃ pc, e = .stackUnderflow pc

theorem Underflows.bind {step : StackM α} {next : α → StackM β} (hstep : Underflows step)
    (hnext : ∀ a, Underflows (next a)) : Underflows (step >>= next) := by
  intro s e t h
  rcases bind_error h with h | ⟨a, u, -, h⟩
  · exact hstep s e t h
  · exact hnext a u e t h

theorem underflows_push (w : Int) : Underflows (OperandStack.push w) := fun _ _ _ h => by cases h

theorem underflows_pop : Underflows OperandStack.pop := by
  intro ⟨words, pc⟩ e t h
  simp only [OperandStack.pop] at h
  split at h <;> cases h
  exact ⟨pc, rfl⟩

theorem underflows_get (i : Nat) : Underflows (OperandStack.get i) := by
  intro s e t h
  simp only [OperandStack.get] at h
  split at h <;> cases h
  exact ⟨s.pc, rfl⟩

theorem underflows_set (i : Nat) (w : Int) : Underflows (OperandStack.set i w) := by
  intro ⟨words, pc⟩ e t h
  simp only [OperandStack.set] at h
  split at h <;> cases h
  exact ⟨pc, rfl⟩

theorem underflows_indexFromTop (d : Nat) : Underflows (OperandStack.indexFromTop d) := by
  intro s e t h
  simp only [OperandStack.indexFromTop] at h
  split at h <;> cases h
  exact ⟨s.pc, rfl⟩

theorem underflows_drop (k : Nat) : Underflows (OperandStack.drop k) := by
  intro ⟨words, pc⟩ e t h
  simp only [OperandStack.drop] at h
  split at h <;> cases h
  exact ⟨pc, rfl⟩

theorem Underflows.quiet {step : StackM α} (hstep : Underflows step) : Quiet (onStack step : Exec ρ α) := by
  intro ⟨pc, stack, heap, regs⟩ e t h
  simp only [onStack] at h
  cases hs : step stack with
  | ok a stack' =>
    rw [hs] at h
    cases h
  | error e' stack' =>
    rw [hs] at h
    cases h
    obtain ⟨pc, rfl⟩ := hstep _ _ _ hs
    exact stackUnderflow_quiet pc

theorem quiet_push (w : Int) : Quiet (push w : Exec ρ Unit) := (underflows_push w).quiet

theorem quiet_pop : Quiet (pop : Exec ρ Int) := underflows_pop.quiet

theorem quiet_peek (d : Nat) : Quiet (peek d : Exec ρ Int) := ((underflows_indexFromTop d).bind underflows_get).quiet

theorem quiet_top : Quiet (top : Exec ρ Int) := quiet_peek 0

theorem quiet_poke (d : Nat) (w : Int) : Quiet (poke d w : Exec ρ Unit) :=
  ((underflows_indexFromTop d).bind fun i => underflows_set i w).quiet

theorem quiet_getAt (i : Nat) : Quiet (getAt i : Exec ρ Int) := (underflows_get i).quiet

theorem quiet_setAt (i : Nat) (w : Int) : Quiet (setAt i w : Exec ρ Unit) := (underflows_set i w).quiet

theorem quiet_truncate (k : Nat) : Quiet (truncate k : Exec ρ Unit) := fun _ _ _ h => by cases h

theorem quiet_drop (k : Nat) : Quiet (drop k : Exec ρ Unit) := (underflows_drop k).quiet

theorem quiet_slide (k : Nat) : Quiet (slide k : Exec ρ Unit) :=
  (underflows_pop.bind fun w => (underflows_drop k).bind fun _ => underflows_push w).quiet

theorem quiet_stackSize : Quiet (stackSize : Exec ρ Nat) := fun _ _ _ h => by cases h

theorem quiet_next : Quiet (next : Exec ρ Nat) := fun _ _ _ h => by cases h

theorem quiet_jumpTo (pc : Nat) : Quiet (jumpTo pc : Exec ρ Unit) := fun _ _ _ h => by cases h

theorem quiet_registers : Quiet (registers : Exec ρ ρ) := fun _ _ _ h => by cases h

theorem quiet_setRegisters (regs : ρ) : Quiet (setRegisters regs : Exec ρ Unit) := fun _ _ _ h => by cases h

theorem quiet_alloc (k : Nat) : Quiet (alloc k : Exec ρ Int) := fun _ _ _ h => by cases h

theorem quiet_load (a : Int) : Quiet (load a : Exec ρ Int) := by
  intro ⟨pc, stack, heap, regs⟩ e t h
  simp only [load, onHeap, Heap.load, Heap.index] at h
  split_ifs at h
  cases h
  exact badAddress_quiet _ _

theorem quiet_store (a w : Int) : Quiet (store a w : Exec ρ Unit) := by
  intro ⟨pc, stack, heap, regs⟩ e t h
  simp only [store, onHeap, Heap.store, Heap.index] at h
  split_ifs at h
  cases h
  exact badAddress_quiet _ _

/-- a look-up for want of a place -/
def Names (found : Except Fault α) : Prop := ∀ e, found = .error e → e ≠ .divisionByZero ∧ e ≠ .overflow

theorem Names.quiet {found : Except Fault α} (h : Names found) : Quiet (check found : Exec ρ α) := by
  intro s e t hs
  cases found with
  | ok a => cases hs
  | error e' =>
    cases hs
    exact h e rfl

theorem quiet_target (image : Image ι) (l : Label) : Quiet (check (image.target l) : Exec ρ Nat) := by
  refine Names.quiet fun e h => ?_
  rw [Image.target] at h
  split at h <;> cases h
  exact unknownLabel_quiet _

theorem quiet_addressOf (image : Image ι) (l : Label) : Quiet (check (image.addressOf l) : Exec ρ Int) := by
  refine Names.quiet fun e h => ?_
  simp only [Image.addressOf, Image.target] at h
  split at h <;> cases h
  exact unknownLabel_quiet _

theorem quiet_pcOf (image : Image ι) (a : Int) : Quiet (check (image.pcOf a) : Exec ρ Nat) := by
  refine Names.quiet fun e h => ?_
  simp only [Image.pcOf] at h
  split_ifs at h
  cases h
  exact badAddress_quiet _ _

theorem quiet_stackOffset (k : Int) : Quiet (check (stackOffset k) : Exec ρ Nat) := by
  refine Names.quiet fun e h => ?_
  rw [stackOffset] at h
  split_ifs at h
  cases h
  exact badAddress_quiet _ _

theorem quiet_element (vector i : Int) : Quiet (element vector i : Exec ρ Int) := quiet_load _

theorem quiet_makePair (a b : Int) : Quiet (makePair a b : Exec ρ Int) :=
  (quiet_alloc 2).bind fun _ => (quiet_store _ _).bind fun _ => (quiet_store _ _).bind fun _ => quiet_pure _

theorem quiet_copyPair (source dest : Int) : Quiet (copyPair source dest : Exec ρ Unit) :=
  (quiet_load _).bind fun _ => (quiet_store _ _).bind fun _ => (quiet_load _).bind fun _ => quiet_store _ _

theorem quiet_makeFunction (image : Image ι) (body : Label) : Quiet (makeFunction image body : Exec ρ Int) :=
  (quiet_alloc 2).bind fun _ => (quiet_addressOf image body).bind fun _ => (quiet_store _ _).bind fun _ =>
    quiet_pop.bind fun _ => (quiet_store _ _).bind fun _ => quiet_pure _

theorem quiet_fillVector (vector : Int) (count : Nat) : Quiet (fillVector vector count : Exec ρ Unit) := by
  induction count with
  | zero => exact quiet_pure ()
  | succ count ih => exact quiet_pop.bind fun _ => (quiet_store _ _).bind fun _ => ih

theorem quiet_makeVector (n : Int) : Quiet (makeVector n : Exec ρ Int) :=
  (quiet_stackOffset n).bind fun count => (quiet_alloc _).bind fun vector => (quiet_store _ _).bind fun _ =>
    (quiet_fillVector vector count).bind fun _ => quiet_pure _

end Exec

theorem quotient_error {v w : Int} {e : Fault} (h : quotient v w = .error e) : e = .divisionByZero ∨ e = .overflow := by
  rw [quotient] at h
  split_ifs at h <;> cases h
  · exact .inl rfl
  · exact .inr rfl

/-- only a division is in want of a quotient -/
theorem Instr.exec_error [Runnable ι ρ] {image : Image ι} {i : Instr ι} {e : Fault}
    (hown : ∀ op : ι, Exec.Quiet (Runnable.exec image op : Exec ρ Unit))
    (h : i.exec image (m.at_ pc r) = .error e s) (he : e = .divisionByZero ∨ e = .overflow) :
    ∃ (op : BinaryOp) (m' : Memory ρ) (v w : Int),
      i = .binary op ∧ m = (m'.push v).push w ∧ op.eval v w = .error e := by
  -- every other instruction is put together from work that never fails like that
  have loud {x : Exec ρ Unit} (hx : Exec.Quiet x) (h : x (m.at_ pc r) = .error e s) : False := by
    obtain ⟨h₁, h₂⟩ := hx _ _ _ h
    exact he.elim h₁ h₂
  cases i with
  | binary op =>
    rw [exec] at h
    rcases bind_error h with h | ⟨w, t, hpop, h⟩
    · exact absurd he (by have := Exec.quiet_pop _ _ _ h; tauto)
    obtain ⟨m₁, rfl, rfl⟩ := Exec.pop_ok hpop
    rcases bind_error h with h | ⟨v, t, hpop', h⟩
    · exact absurd he (by have := Exec.quiet_pop _ _ _ h; tauto)
    obtain ⟨m', rfl, rfl⟩ := Exec.pop_ok hpop'
    cases hop : op.eval v w with
    | ok n =>
      rw [hop] at h
      cases h
    | error e' =>
      rw [hop] at h
      cases h
      exact ⟨op, m', v, w, rfl, rfl, hop⟩
  | loadc value =>
    cases value with
    | int n => exact (loud (Exec.quiet_push n) h).elim
    | addr l => exact (loud ((Exec.quiet_addressOf image l).bind Exec.quiet_push) h).elim
  | pop => exact (loud (Exec.quiet_pop.bind fun _ => Exec.quiet_pure _) h).elim
  | dup => exact (loud (Exec.quiet_top.bind Exec.quiet_push) h).elim
  | swap =>
    exact (loud (Exec.quiet_pop.bind fun _ => Exec.quiet_pop.bind fun _ => (Exec.quiet_push _).bind fun _ =>
      Exec.quiet_push _) h).elim
  | dec => exact (loud (Exec.quiet_top.bind fun _ => Exec.quiet_poke 0 _) h).elim
  | unary op => exact (loud (Exec.quiet_pop.bind fun _ => Exec.quiet_push _) h).elim
  | label l => exact (loud (Exec.quiet_pure ()) h).elim
  | jump l => exact (loud ((Exec.quiet_target image l).bind Exec.quiet_jumpTo) h).elim
  | jumpz l =>
    refine (loud (Exec.quiet_pop.bind fun w => ?_) h).elim
    split
    · exact (Exec.quiet_target image l).bind Exec.quiet_jumpTo
    · exact Exec.quiet_pure ()
  | own op => exact (loud (hown op) h).elim

end ThreeMachines
