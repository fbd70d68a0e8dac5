/-
States of a machine with a heap, and the processor.

Word `i` of the operand stack and word `j` of the heap lie at the addresses that the layout gives them. Only a saved frame
pointer is not itself in native memory: where the machine has a stack index, the processor has the address of that place.
`saved` are the places of these words. What the machine's registers are in the processor is a relation `R` that each
machine brings along.

- `Holds`: the processor's memory holds a state.
- `leads_shared`: the instructions that all machines share.
-/
import ThreeMachines.Proofs.Native.Allocation

namespace ThreeMachines.Native

open Layout

variable {ρ : Type}

/-- memory holds the stack and the heap of a state -/
structure Holds (L : Layout) (saved : Finset Nat) (s : State ρ) (c : Cpu) : Prop where
  rsp : c.regs .rsp = L.top s.stack.size
  slots : s.stack.size ≤ L.slots
  mapped : ∀ i < L.slots, (c.mem.read (L.address (.slot i))).isSome
  stack : ∀ (i : Nat) w, s.stack.words[i]? = some w →
    c.mem.read (L.address (.slot i)) = some (if i ∈ saved then L.frame w else word w)
  taken : c.taken = s.heap.size
  cells : s.heap.size ≤ L.words
  heap : ∀ (j : Nat) w, s.heap.words[j]? = some w → c.mem.read (L.address (.cell j)) = some (word w)
  saved : ∀ i ∈ saved, i < s.stack.size

/-- all words of a state are words -/
structure Wordy (s : State ρ) : Prop where
  stack : ∀ w ∈ s.stack.words, isWord w
  heap : ∀ w ∈ s.heap.words, isWord w

/-- there is room for a state -/
structure Fits (L : Layout) (s : State ρ) : Prop where
  slots : s.stack.size ≤ L.slots
  cells : s.heap.size ≤ L.words

/-- the words of a heap as they lie in memory -/
def pictured (heap : Heap) : Array Word := heap.words.map word

/-- a picture of a memory -/
structure Depicts (R : Layout → ρ → (Reg → Word) → Prop) (L : Layout) (saved : Finset Nat) (m : Memory ρ)
    (p : Picture) : Prop where
  stack : p.stack = L.drawn saved m.words
  heap : p.heap = pictured m.heap
  taken : p.taken = m.heap.words.size
  regs : R L m.regs p.regs
  saved : ∀ i ∈ saved, i < m.words.size

section
variable {L : Layout} {saved : Finset Nat} {s : State ρ} {c : Cpu} {p : Picture} {heap : Heap} {j : Nat} {w : Int}

/-- a saved place below the top, if the top is not saved itself -/
theorem saved_lt (saved : Finset Nat) {n : Nat} (h : ∀ j ∈ saved, j < n + 1) (hn : n ∉ saved) : ∀ j ∈ saved, j < n := fun j hj =>
  Nat.lt_of_le_of_ne (Nat.le_of_lt_succ (h j hj)) fun hjn => hn (hjn ▸ hj)

@[simp] theorem size_pictured (heap : Heap) : (pictured heap).size = heap.words.size := by simp [pictured]

theorem getElem?_pictured (h : heap.words[j]? = some w) : (pictured heap)[j]? = some (word w) := by simp [pictured, h]

theorem pictured_append (heap : Heap) (ws : List Int) :
    pictured (heap.append ws) = pictured heap ++ (ws.map word).toArray := by simp [pictured, Heap.append]

theorem pictured_set (heap : Heap) (q : Nat) (w : Int) :
    pictured (heap.set q w) = (pictured heap).setIfInBounds q (word w) := by
  simp [pictured, Heap.set, Array.map_setIfInBounds]

theorem Holds.shows (h : Holds L saved s c) :
    L.Shows ⟨c.regs, c.flags, L.drawn saved s.stack.words, pictured s.heap, c.taken⟩ c where
  regs r := by
    by_cases hr : r = .rsp
    · subst hr
      rw [h.rsp, reg, if_pos rfl, size_drawn]
      rfl
    · exact (if_neg hr).symm
  flags := rfl
  taken := rfl
  slots := by
    rw [size_drawn]
    exact h.slots
  cells := by
    rw [size_pictured]
    exact h.cells
  mapped := h.mapped
  words x w hx := by
    cases x with
    | slot i =>
      simp only [Picture.at, drawn, Array.getElem?_mapIdx, Option.map_eq_some_iff] at hx
      obtain ⟨v, hv, rfl⟩ := hx
      exact h.stack i v hv
    | cell j =>
      simp only [Picture.at, pictured, Array.getElem?_map, Option.map_eq_some_iff] at hx
      obtain ⟨v, hv, rfl⟩ := hx
      exact h.heap j v hv

theorem holds_of_shows {R : Layout → ρ → (Reg → Word) → Prop} {m : Memory ρ} {pc r : Nat} (h : L.Shows p c)
    (hp : Depicts R L saved m p) : Holds L saved (m.at_ pc r) c := by
  obtain ⟨regs, flags, stack, heap, taken⟩ := p
  obtain ⟨rfl, rfl, rfl, -, hsaved⟩ := hp
  refine ⟨?_, by simpa using h.slots, h.mapped, fun i w hw => ?_, h.taken, ?_, fun j w hw => ?_, hsaved⟩
  · rw [h.rsp, size_drawn]
    rfl
  · refine h.words (.slot i) _ ?_
    have hw' : m.words[i]? = some w := hw
    simp [Picture.at, drawn, hw']
  · have hcells := h.cells
    rwa [size_pictured] at hcells
  · exact h.words (.cell j) _ (getElem?_pictured hw)

end

/-! ## Pictures of a memory

How a picture changes with the memory, one lemma for each kind of change, and what it shows of the memory's words. A proof
about an operation changes the picture along with the memory and never opens it.
-/

/-- a relation of registers that other registers do not matter for -/
def Respects (R : Layout → ρ → (Reg → Word) → Prop) : Prop := ∀ L regs a b, Keeps a b → R L regs a → R L regs b

namespace Depicts

variable {R : Layout → ρ → (Reg → Word) → Prop} {L : Layout} {saved saved' : Finset Nat} {m : Memory ρ} {p : Picture}
  {regs regs' : Reg → Word} {flags flags' : Option Flags} {stack heap : Array Word} {taken i q : Nat} {w : Int}

theorem size_stack (h : Depicts R L saved m ⟨regs, flags, stack, heap, taken⟩) : stack.size = m.words.size := by
  have hstack : stack = L.drawn saved m.words := h.stack
  rw [hstack, size_drawn]

theorem size_heap (h : Depicts R L saved m ⟨regs, flags, stack, heap, taken⟩) : heap.size = m.heap.words.size := by
  have hheap : heap = pictured m.heap := h.heap
  rw [hheap, size_pictured]

theorem taken_eq (h : Depicts R L saved m ⟨regs, flags, stack, heap, taken⟩) : taken = heap.size :=
  h.taken.trans h.size_heap.symm

/-- the place over the stack is no saved one -/
theorem top_free (h : Depicts R L saved m p) : m.words.size ∉ saved := fun hmem =>
  absurd (h.saved _ hmem) (Nat.lt_irrefl _)

theorem slot (h : Depicts R L saved m ⟨regs, flags, stack, heap, taken⟩) (hw : m.words[i]? = some w) (hi : i ∉ saved) :
    stack[i]? = some (word w) := by
  have hstack : stack = L.drawn saved m.words := h.stack
  rw [hstack, getElem?_drawn hw hi]

theorem slot_saved (h : Depicts R L saved m ⟨regs, flags, stack, heap, taken⟩) (hw : m.words[i]? = some w)
    (hi : i ∈ saved) : stack[i]? = some (L.frame w) := by
  have hstack : stack = L.drawn saved m.words := h.stack
  rw [hstack, getElem?_drawn_saved hw hi]

theorem cell (h : Depicts R L saved m ⟨regs, flags, stack, heap, taken⟩) (hw : m.heap.words[q]? = some w) :
    heap[q]? = some (word w) := by
  have hheap : heap = pictured m.heap := h.heap
  rw [hheap, getElem?_pictured hw]

/-- registers that do not matter, and flags -/
theorem keeps (h : Depicts R L saved m ⟨regs, flags, stack, heap, taken⟩) (hR : Respects R) (hkeeps : Keeps regs regs') :
    Depicts R L saved m ⟨regs', flags', stack, heap, taken⟩ :=
  ⟨h.stack, h.heap, h.taken, hR _ _ _ _ hkeeps h.regs, h.saved⟩

theorem withRegs {machine : ρ} (h : Depicts R L saved m ⟨regs, flags, stack, heap, taken⟩) (hregs : R L machine regs') :
    Depicts R L saved { m with regs := machine } ⟨regs', flags', stack, heap, taken⟩ :=
  ⟨h.stack, h.heap, h.taken, hregs, h.saved⟩

theorem push (h : Depicts R L saved m ⟨regs, flags, stack, heap, taken⟩) (w : Int) :
    Depicts R L saved (m.push w) ⟨regs, flags, stack.push (word w), heap, taken⟩ where
  stack := by
    have hstack : stack = L.drawn saved m.words := h.stack
    rw [Memory.push_words, drawn_push h.top_free, hstack]
  heap := h.heap
  taken := h.taken
  regs := h.regs
  saved j hj := by simpa using Nat.lt_succ_of_lt (h.saved j hj)

/-- a frame pointer that is saved on top -/
theorem push_saved (h : Depicts R L saved m ⟨regs, flags, stack, heap, taken⟩) (w : Int) :
    Depicts R L (insert m.words.size saved) (m.push w) ⟨regs, flags, stack.push (L.frame w), heap, taken⟩ where
  stack := by
    have hstack : stack = L.drawn saved m.words := h.stack
    have hsame : L.drawn saved m.words = L.drawn (insert m.words.size saved) m.words :=
      drawn_congr fun j hj => by simp [Nat.ne_of_lt hj]
    rw [Memory.push_words, drawn_push_saved (Finset.mem_insert_self _ _), ← hsame, hstack]
  heap := h.heap
  taken := h.taken
  regs := h.regs
  saved j hj := by
    rw [Memory.push_words, Array.size_push]
    rcases Finset.mem_insert.1 hj with rfl | hj
    · exact Nat.lt_succ_self _
    · exact Nat.lt_succ_of_lt (h.saved j hj)

theorem pop (h : Depicts R L saved (m.push w) ⟨regs, flags, stack, heap, taken⟩) (htop : m.words.size ∉ saved) :
    ∃ stack', stack = stack'.push (word w) ∧ Depicts R L saved m ⟨regs, flags, stack', heap, taken⟩ := by
  have hstack : stack = L.drawn saved (m.words.push w) := h.stack
  rw [drawn_push htop] at hstack
  exact ⟨_, hstack, rfl, h.heap, h.taken, h.regs, saved_lt saved (by simpa using h.saved) htop⟩

/-- a saved frame pointer is taken back -/
theorem pop_saved (h : Depicts R L saved (m.push w) ⟨regs, flags, stack, heap, taken⟩) (htop : m.words.size ∈ saved) :
    ∃ stack', stack = stack'.push (L.frame w) ∧
      Depicts R L (saved.erase m.words.size) m ⟨regs, flags, stack', heap, taken⟩ := by
  have hstack : stack = L.drawn saved (m.words.push w) := h.stack
  rw [drawn_push_saved htop] at hstack
  refine ⟨_, hstack, drawn_congr fun j hj => ?_, h.heap, h.taken, h.regs, fun j hj => ?_⟩
  · simp [Nat.ne_of_lt hj]
  · obtain ⟨hne, hmem⟩ := Finset.mem_erase.1 hj
    have hlt : j < m.words.size + 1 := by simpa using h.saved j hmem
    exact Nat.lt_of_le_of_ne (Nat.le_of_lt_succ hlt) hne

theorem pops {as : List Int} (h : Depicts R L saved (m.pushes as) ⟨regs, flags, stack, heap, taken⟩)
    (hlow : ∀ j ∈ saved, j < m.words.size) :
    ∃ stack', stack = stack' ++ (as.map word).toArray ∧ Depicts R L saved m ⟨regs, flags, stack', heap, taken⟩ := by
  have hstack : stack = L.drawn saved (m.pushes as).words := h.stack
  rw [drawn_pushes m as hlow] at hstack
  refine ⟨_, hstack, rfl, ?_, ?_, ?_, hlow⟩
  · rw [h.heap, Memory.pushes_heap]
  · rw [h.taken, Memory.pushes_heap]
  · have hregs := h.regs
    rwa [Memory.pushes_regs] at hregs

/-- a write over any word, be it a saved frame pointer -/
theorem overwrite (h : Depicts R L saved m ⟨regs, flags, stack, heap, taken⟩) (i : Nat) (w : Int) :
    Depicts R L (saved.erase i) (m.write i w) ⟨regs, flags, stack.setIfInBounds i (word w), heap, taken⟩ where
  stack := by
    have hstack : stack = L.drawn saved m.words := h.stack
    have hwrite : L.drawn (saved.erase i) (m.words.setIfInBounds i w) =
        (L.drawn saved m.words).setIfInBounds i (word w) :=
      drawn_overwrite (Finset.notMem_erase i saved) fun j hj => by simp [hj]
    rw [Memory.write, hwrite, hstack]
  heap := h.heap
  taken := h.taken
  regs := h.regs
  saved j hj := by simpa [Memory.write] using h.saved j (Finset.mem_of_mem_erase hj)

/-- a write to a place that is no saved one -/
theorem write (h : Depicts R L saved m ⟨regs, flags, stack, heap, taken⟩) (hi : i ∉ saved) (w : Int) :
    Depicts R L saved (m.write i w) ⟨regs, flags, stack.setIfInBounds i (word w), heap, taken⟩ := by
  have hwrite := h.overwrite i w
  rwa [Finset.erase_eq_of_notMem hi] at hwrite

/-- all words but the lowest ones are dropped -/
theorem take (h : Depicts R L saved m ⟨regs, flags, stack, heap, taken⟩) {n : Nat} (hn : n ≤ m.words.size) :
    Depicts R L (saved.filter (· < n)) { m with words := m.words.take n } ⟨regs, flags, stack.take n, heap, taken⟩ where
  stack := by
    have hstack : stack = L.drawn saved m.words := h.stack
    have hsame : L.drawn (saved.filter (· < n)) (m.words.take n) = L.drawn saved (m.words.take n) :=
      drawn_congr fun j hj => by
        have hlt : j < n := by
          simp at hj
          exact hj.1
        simp [hlt]
    rw [hsame, drawn_take, hstack]
  heap := h.heap
  taken := h.taken
  regs := h.regs
  saved j hj := by
    simpa [hn] using (Finset.mem_filter.1 hj).2

/-- a write to a word of the heap -/
theorem set (h : Depicts R L saved m ⟨regs, flags, stack, heap, taken⟩) (q : Nat) (w : Int) :
    Depicts R L saved (m.onHeap (m.heap.set q w)) ⟨regs, flags, stack, heap.setIfInBounds q (word w), taken⟩ where
  stack := h.stack
  heap := by
    have hheap : heap = pictured m.heap := h.heap
    rw [Memory.onHeap_heap, pictured_set, hheap]
  taken := by
    have htaken : taken = m.heap.words.size := h.taken
    simp [htaken]
  regs := h.regs
  saved := h.saved

/-- a new block -/
theorem append (h : Depicts R L saved m ⟨regs, flags, stack, heap, taken⟩) (ws : List Int) :
    Depicts R L saved (m.onHeap (m.heap.append ws))
      ⟨regs, flags, stack, heap ++ (ws.map word).toArray, taken + ws.length⟩ where
  stack := h.stack
  heap := by
    have hheap : heap = pictured m.heap := h.heap
    rw [Memory.onHeap_heap, pictured_append, hheap]
  taken := by
    have htaken : taken = m.heap.words.size := h.taken
    simp [htaken]
  regs := h.regs
  saved := h.saved

/-- a new block and its address on top of the stack -/
theorem pushBlock (h : Depicts R L saved m ⟨regs, flags, stack, heap, taken⟩) (ws : List Int) :
    Depicts R L saved ((m.onHeap (m.heap.append ws)).push (Heap.address m.heap.words.size))
      ⟨regs, flags, stack.push (word (Heap.address heap.size)), heap ++ (ws.map word).toArray, taken + ws.length⟩ := by
  rw [h.size_heap]
  exact (h.append ws).push _

end Depicts

theorem Fits.slots_of_push {L : Layout} {m : Memory ρ} {w : Int} {pc r : Nat} (h : Fits L ((m.push w).at_ pc r)) :
    m.words.size < L.slots := by
  simpa [Nat.succ_le_iff] using h.slots

theorem Fits.cells_of_append {L : Layout} {m : Memory ρ} {ws : List Int} {w : Int} {pc r : Nat}
    (h : Fits L (((m.onHeap (m.heap.append ws)).push w).at_ pc r)) : m.heap.words.size + ws.length ≤ L.words := by
  simpa [Heap.size] using h.cells

/-- control is at the machine's next instruction, and the processor looks like a picture of the memory -/
def Arrives (R : Layout → ρ → (Reg → Word) → Prop) (L : Layout) (saved : Finset Nat) (s : State ρ) : Outcome → Prop :=
  L.Leaves (word (Image.base + s.pc)) (Depicts R L saved ⟨s.stack.words, s.heap, s.regs⟩)

/-- the code ends, and the machine is at the next instruction -/
theorem leads_arrive {ι : Type} {R : Layout → ρ → (Reg → Word) → Prop} {L : Layout} {saved : Finset Nat} {m : Memory ρ}
    {p : Picture} {image : Image ι} {env : Surroundings} {pc r : Nat} (henv : Surrounds image pc env)
    (hp : Depicts R L saved m p) : L.Leads env p [] (Arrives R L saved (m.at_ (pc + 1) r)) := leads_done henv hp

/-! ## Instructions that all machines share -/

/-- the places of the stack that an instruction of all machines reads, writes or drops, of `n` words -/
def touches {ι : Type} (n : Nat) (i : ThreeMachines.Instr ι) (j : Nat) : Prop := n ≤ j + reach i

theorem leads_shared {ι : Type} [Runnable ι ρ] {R : Layout → ρ → (Reg → Word) → Prop} {own : ι → Asm} {image : Image ι}
    {i : ThreeMachines.Instr ι} {L : Layout} {env : Surroundings} {saved : Finset Nat} {m : Memory ρ} {s : State ρ}
    {pc r : Nat} {p : Picture} (hR : Respects R) (hi : ∀ op, i ≠ .own op) (henv : Surrounds image pc env)
    (hwords : ∀ w ∈ m.words, isWord w) (hp : Depicts R L saved m p) (hfree : ∀ j ∈ saved, ¬ touches m.words.size i j)
    (h : i.exec image (m.at_ (pc + 1) r) = .ok () s) (hroom : s.stack.size ≤ L.slots) :
    L.Leads env p (Snippet.lower own i) (Arrives R L saved s) := by
  have hsaved : ∀ j ∈ saved, j + reach i < m.words.size := fun j hj => Nat.lt_of_not_le (hfree j hj)
  have hrestacks := leads_common own saved hi henv hp.stack hwords hsaved h hroom
  intro c hc
  obtain ⟨c', p', hrun, hshows, hp'⟩ := hrestacks.leads c hc
  refine ⟨c', p', hrun, hshows, hp'.stack, ?_, ?_, ?_, fun j hj => ?_⟩
  · rw [hp'.heap, hp.heap, hrestacks.heap]
  · rw [hp'.taken, hp.taken, hrestacks.heap]
  · rw [hrestacks.regs]
    exact hR _ _ _ _ hp'.regs hp.regs
  · have hlt := hsaved j hj
    have hsize := hrestacks.size
    dsimp only
    omega

/-! ## Steps -/

/-- the processor holds a state: its memory and its registers -/
structure Represents (R : Layout → ρ → (Reg → Word) → Prop) (L : Layout) (saved : Finset Nat) (s : State ρ)
    (c : Cpu) : Prop extends Holds L saved s c where
  regs : R L s.regs c.regs

section
variable {ι : Type} [Runnable ι ρ] [Lowerable ι]

/-- a machine is at an instruction, and the processor before its code -/
structure Meets (R : Layout → ρ → (Reg → Word) → Prop) (L : Layout) (image : Image ι) (env : Surroundings)
    (malloc : Cpu → Cpu) (saved : Finset Nat) (i : ThreeMachines.Instr ι) (s : State ρ) (c : Cpu) : Prop where
  instr : image.instrs[s.pc]? = some i
  surrounds : Surrounds image s.pc env
  imports : env.imports "malloc" = some malloc
  allocates : Allocates L malloc
  words : Wordy s
  represents : Represents R L saved s c

/-- the code does what a step does, and traps where the step is in want of a quotient -/
structure CarriesOut (R : Layout → ρ → (Reg → Word) → Prop) (L : Layout) (image : Image ι) (env : Surroundings)
    (saved : Finset Nat) (i : ThreeMachines.Instr ι) (s : State ρ) (c : Cpu) : Prop where
  step : ∀ s', image.step s = .ok () s' → Fits L s' →
    ∃ c', run env (lower i) c = .jump (word (Image.base + s'.pc)) c' ∧ Represents R L saved s' c'
  trap : ∀ cause s', image.step s = .error cause s' → cause = .divisionByZero ∨ cause = .overflow →
    run env (lower i) c = .trap

/-- an instruction touches saved frame pointers as it may; `proper` says it for the machine's own operations -/
def Fair (proper : ι → Prop) (saved : Finset Nat) (n : Nat) : ThreeMachines.Instr ι → Prop
  | .own op => proper op
  | i => ∀ j ∈ saved, ¬ touches n i j

/-- the places of saved frame pointers after an instruction; `saves` says it for the machine's own operations -/
def savedAfter (saves : ι → Finset Nat) (saved : Finset Nat) : ThreeMachines.Instr ι → Finset Nat
  | .own op => saves op
  | _ => saved

variable {R : Layout → ρ → (Reg → Word) → Prop} {L : Layout} {image : Image ι} {env : Surroundings}
  {malloc : Cpu → Cpu} {saved : Finset Nat} {i : ThreeMachines.Instr ι} {m : Memory ρ} {pc r : Nat} {c : Cpu}

omit [Lowerable ι] in
theorem Fair.free {proper : ι → Prop} {n : Nat} (h : Fair proper saved n i) (hi : ∀ op, i ≠ .own op) :
    ∀ j ∈ saved, ¬ touches n i j := by
  cases i with
  | own op => exact absurd rfl (hi op)
  | loadc | pop | dup | swap | dec | unary | binary | label | jump | jumpz => exact h

omit [Lowerable ι] in
theorem savedAfter_shared {saves : ι → Finset Nat} (hi : ∀ op, i ≠ .own op) : savedAfter saves saved i = saved := by
  cases i with
  | own op => exact absurd rfl (hi op)
  | loadc | pop | dup | swap | dec | unary | binary | label | jump | jumpz => rfl

theorem Represents.depicts (h : Represents R L saved (m.at_ pc r) c) :
    Depicts R L saved m ⟨c.regs, c.flags, L.drawn saved m.words, pictured m.heap, c.taken⟩ :=
  ⟨rfl, rfl, h.taken, h.regs, h.saved⟩

/-- what holds of the operations holds of every instruction -/
theorem Meets.carriesOut {proper : ι → Prop} {saves : ι → Finset Nat} (hR : Respects R)
    (hquiet : ∀ op : ι, Exec.Quiet (Runnable.exec image op : Exec ρ Unit))
    (hmeets : Meets R L image env malloc saved i (m.at_ pc r) c) (hfair : Fair proper saved m.words.size i)
    (hown : ∀ op p s', i = .own op → proper op → Depicts R L saved m p →
      Runnable.exec image op (m.at_ (pc + 1) pc) = .ok () s' → Fits L s' →
      L.Leads env p (Lowerable.lower op) (Arrives R L (saves op) s')) :
    CarriesOut R L image env (savedAfter saves saved i) i (m.at_ pc r) c := by
  obtain ⟨hi, henv, -, -, hwords, hc⟩ := hmeets
  have hexec := Image.step_at (m := m) (r := r) hi
  refine ⟨fun s' h hroom => ?_, fun cause s' h hcause => ?_⟩
  · suffices Arrives R L (savedAfter saves saved i) s' (run env (lower i) c) by
      obtain ⟨c', p, hrun, hshows, hp⟩ := this
      refine ⟨c', hrun, holds_of_shows (r := s'.stack.pc) hshows hp, hR _ _ _ _ ?_ hp.regs⟩
      exact ⟨hshows.regs .rbx, hshows.regs .rbp, hshows.regs .r12, hshows.regs .r13, hshows.regs .r14⟩
    by_cases hop : ∃ op, i = .own op
    · obtain ⟨op, rfl⟩ := hop
      exact hown op _ s' rfl hfair hc.depicts (hexec.symm.trans h) hroom c hc.shows
    · have hi' : ∀ op, i ≠ .own op := fun op hop' => hop ⟨op, hop'⟩
      rw [savedAfter_shared hi']
      exact leads_shared hR hi' henv hwords.stack hc.depicts (hfair.free hi') (hexec.symm.trans h) hroom.slots
        c hc.shows
  · have hreach : ∀ j ∈ saved, j + reach i < m.words.size := fun j hj => by
      by_cases hop : ∃ op, i = .own op
      · obtain ⟨op, rfl⟩ := hop
        exact hc.saved j hj
      · exact Nat.lt_of_not_le (hfair.free (fun op hop' => hop ⟨op, hop'⟩) j hj)
    exact leads_trap_of_exec saved (m := m) hquiet rfl hwords.stack hreach (hexec.symm.trans h) hcause c hc.shows

end

end ThreeMachines.Native
