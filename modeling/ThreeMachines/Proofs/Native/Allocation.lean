/-
Blocks on the heap in native code.

The allocator of the C library is a parameter. What the machines need of it is `Allocates`: called for some words with rsp
aligned, it returns the address of the next words of the heap, whatever they hold, and leaves alone the registers that
belong to the caller, the stack from rsp on, and the words that it has handed out before.

- `Layout.leads_alloc`: the code around the call keeps the operand stack as it is.
- `Layout.leads_mkvec`, `Layout.leads_mkfunval`, `Layout.leads_copyPair`, `Layout.leads_slide`: work on blocks.
-/
import ThreeMachines.Proofs.Native.Snippets

namespace ThreeMachines.Native

open Layout

/-- the allocator is called for `n` words -/
structure Asks (L : Layout) (c : Cpu) (n : Nat) : Prop where
  bytes : c.regs .rdi = word (8 * n)
  aligned : c.regs .rsp &&& 15 = 0
  room : c.taken + n ≤ L.words

/-- what the allocator does -/
structure Allocates (L : Layout) (malloc : Cpu → Cpu) : Prop where
  block : ∀ {c n}, Asks L c n → (malloc c).regs .rax = L.address (.cell c.taken)
  taken : ∀ {c n}, Asks L c n → (malloc c).taken = c.taken + n
  saved : ∀ {c n r}, Asks L c n → r ∈ [Reg.rbx, .rbp, .rsp, .r12, .r13, .r14, .r15] → (malloc c).regs r = c.regs r
  fresh : ∀ {c n j}, Asks L c n → j < n → ((malloc c).mem.read (L.address (.cell (c.taken + j)))).isSome
  cells : ∀ {c n j w}, Asks L c n → j < c.taken → c.mem.read (L.address (.cell j)) = some w →
    (malloc c).mem.read (L.address (.cell j)) = some w
  slots : ∀ {c n i w}, Asks L c n → i < L.slots → (c.regs .rsp).toNat ≤ (L.address (.slot i)).toNat →
    c.mem.read (L.address (.slot i)) = some w → (malloc c).mem.read (L.address (.slot i)) = some w
  mapped : ∀ {c n i}, Asks L c n → i < L.slots → (c.mem.read (L.address (.slot i))).isSome →
    ((malloc c).mem.read (L.address (.slot i))).isSome

theorem and_aligned (x : Word) : x &&& word (-16) &&& 15 = 0 := by
  rw [BitVec.and_assoc, show word (-16) &&& 15 = 0#64 by decide, BitVec.and_zero]
  rfl

theorem toNat_and_le (x y : Word) : (x &&& y).toNat ≤ x.toNat := by
  rw [BitVec.toNat_and]
  exact Nat.and_le_left

namespace Layout

variable {L : Layout} {env : Surroundings} {malloc : Cpu → Cpu} {regs : Reg → Word} {flags : Option Flags}
  {stack heap : Array Word} {taken : Nat} {rest : Asm} {Q : Outcome → Prop}

/-- the processor where the code calls the allocator for `n` words -/
def calling (c : Cpu) (n : Nat) : Cpu :=
  (((c.set .r15 (c.regs .rsp)).set .rsp (c.regs .rsp &&& word (-16))).flagged none).set .rdi (word (8 * n))

/-- the processor after the code, where the allocator has left it like this -/
def called (c : Cpu) : Cpu := (c.set .rsp (c.regs .r15)).set .rdx (c.regs .rax)

/-- the words that the processor has from word `start` of the heap on -/
def leftOver (L : Layout) (c : Cpu) (start n : Nat) : List Word :=
  List.ofFn fun j : Fin n => (c.mem.read (L.address (.cell (start + j)))).getD 0

theorem run_heapAlloc (himport : env.imports "malloc" = some malloc) (c : Cpu) (n : Nat) (rest : Asm) :
    run env (plain (Snippet.heapAlloc n) ++ rest) c = run env rest (called (malloc (calling c n))) := by
  have hcall : ∀ back, (Instr.callImport "malloc").exec env back (calling c n) = .next (malloc (calling c n)) := fun _ => by
    rw [Instr.exec, himport]
  exact (run_next fun _ => rfl).trans <| (run_next fun _ => rfl).trans <| (run_next fun _ => rfl).trans <|
    (run_next hcall).trans <| (run_next fun _ => rfl).trans <| run_next fun _ => rfl

section
variable {c : Cpu} {n : Nat} (hc : L.Shows ⟨regs, flags, stack, heap, heap.size⟩ c)
include hc

theorem asks_calling (hroom : heap.size + n ≤ L.words) : Asks L (calling c n) n where
  bytes := rfl
  aligned := and_aligned _
  room := by
    have htaken : (calling c n).taken = heap.size := hc.taken
    rw [htaken]
    exact hroom

/-- rsp only goes down before the call -/
theorem calling_rsp_le {i : Nat} (hi : i < stack.size) :
    ((calling c n).regs .rsp).toNat ≤ (L.address (.slot i)).toNat := by
  have hslots : stack.size ≤ L.slots := hc.slots
  have hfits := L.stack_fits
  have htop : (c.regs .rsp).toNat = L.base.toNat - 8 * stack.size := by
    rw [hc.rsp]
    exact toNat_under (n := 8 * stack.size) (by omega)
  refine (toNat_and_le _ _).trans ?_
  rw [htop, toNat_slot (by omega)]
  omega

theorem keeps_called (hmalloc : Allocates L malloc) (hroom : heap.size + n ≤ L.words) :
    Keeps regs (called (malloc (calling c n))).regs := by
  have hsaved : ∀ r ∈ [Reg.rbx, .rbp, .r12, .r13, .r14], (called (malloc (calling c n))).regs r = regs r := by
    intro r hr
    have hkept : (malloc (calling c n)).regs r = (calling c n).regs r :=
      hmalloc.saved (asks_calling hc hroom) (by simp at hr ⊢; tauto)
    simp only [List.mem_cons, List.not_mem_nil, or_false] at hr
    rcases hr with rfl | rfl | rfl | rfl | rfl <;> exact hkept.trans (hc.reg_of_ne (by decide))
  exact ⟨hsaved _ (by simp), hsaved _ (by simp), hsaved _ (by simp), hsaved _ (by simp), hsaved _ (by simp)⟩

/-- the new block is there, whatever it holds -/
theorem read_leftOver (hmalloc : Allocates L malloc) (hroom : heap.size + n ≤ L.words) {j : Nat} {w : Word}
    (hw : (leftOver L (malloc (calling c n)) heap.size n)[j]? = some w) :
    (malloc (calling c n)).mem.read (L.address (.cell (heap.size + j))) = some w := by
  have hj : j < n := by
    have hlt := (List.getElem?_eq_some_iff.1 hw).1
    rwa [leftOver, List.length_ofFn] at hlt
  have hfresh := hmalloc.fresh (asks_calling hc hroom) hj
  have htaken : (calling c n).taken = heap.size := hc.taken
  rw [htaken] at hfresh
  obtain ⟨u, hu⟩ := Option.isSome_iff_exists.1 hfresh
  rw [leftOver, List.getElem?_ofFn, dif_pos hj, hu] at hw
  exact hu.trans hw

theorem shows_called (hmalloc : Allocates L malloc) (hroom : heap.size + n ≤ L.words) :
    L.Shows ⟨(called (malloc (calling c n))).regs, (called (malloc (calling c n))).flags, stack,
      heap ++ (leftOver L (malloc (calling c n)) heap.size n).toArray, heap.size + n⟩ (called (malloc (calling c n))) := by
  have hasks := asks_calling hc hroom
  have htaken : (calling c n).taken = heap.size := hc.taken
  have hrsp : (called (malloc (calling c n))).regs .rsp = L.top stack.size :=
    (hmalloc.saved hasks (r := .r15) (by decide)).trans hc.rsp
  refine ⟨fun r => ?_, rfl, ?_, hc.slots, by simpa [leftOver] using hroom, fun i hi => ?_, fun x w hx => ?_⟩
  · by_cases hr : r = .rsp
    · rw [hr, hrsp]
      rfl
    · exact (if_neg hr).symm
  · exact (hmalloc.taken hasks).trans (by rw [htaken])
  · exact hmalloc.mapped hasks hi (hc.mapped i hi)
  · cases x with
    | slot i =>
      have hi := (Array.getElem?_eq_some_iff.1 hx).1
      exact hmalloc.slots hasks (hi.trans_le hc.slots) (calling_rsp_le hc hi) (hc.words (.slot i) w hx)
    | cell j =>
      rw [Picture.at, Array.getElem?_append] at hx
      by_cases hj : j < heap.size
      · rw [if_pos hj] at hx
        exact hmalloc.cells hasks (by rwa [htaken]) (hc.words (.cell j) w hx)
      · rw [if_neg hj, List.getElem?_toArray] at hx
        obtain ⟨k, rfl⟩ := Nat.exists_eq_add_of_le (Nat.le_of_not_lt hj)
        rw [Nat.add_sub_cancel_left] at hx
        exact read_leftOver hc hmalloc hroom hx

end

/-- **Allocation.** A block comes to the end of the heap, and its address into rdx. -/
theorem leads_alloc (himport : env.imports "malloc" = some malloc) (hmalloc : Allocates L malloc) {n : Nat} {k : Int}
    (hk : k = n) (htaken : taken = heap.size) (hroom : heap.size + n ≤ L.words)
    (hrest : ∀ regs' flags' (block : List Word), Keeps regs regs' → regs' .rdx = word (Heap.address heap.size) →
      block.length = n → L.Leads env ⟨regs', flags', stack, heap ++ block.toArray, taken + n⟩ rest Q) :
    L.Leads env ⟨regs, flags, stack, heap, taken⟩ (plain (Snippet.heapAlloc k) ++ rest) Q := by
  subst hk htaken
  intro c hc
  rw [run_heapAlloc himport]
  refine hrest _ _ _ (keeps_called hc hmalloc hroom) ?_ ?_ _ (shows_called hc hmalloc hroom)
  · have htaken : (calling c n).taken = heap.size := hc.taken
    rw [← htaken]
    exact hmalloc.block (asks_calling hc hroom)
  · rw [leftOver, List.length_ofFn]

/-- a write into the block at the end of the heap -/
theorem leads_storeBlock {block : List Word} {src : Source} {w : Word} {i : Nat} {o : Int} {note : Option String}
    (hrdx : regs .rdx = word (Heap.address heap.size)) (ho : o = 8 * i) (hi : i < block.length)
    (hw : L.Gives ⟨regs, flags, stack, heap ++ block.toArray, taken⟩ src w)
    (hrest : L.Leads env ⟨regs, flags, stack, heap ++ (block.set i w).toArray, taken⟩ rest Q) :
    L.Leads env ⟨regs, flags, stack, heap ++ block.toArray, taken⟩ (.instr (.store ⟨.rdx, o⟩ src) note :: rest) Q := by
  have haddress : Heap.address heap.size + o = Heap.address (heap.size + i) := by
    subst ho
    simp only [Heap.address, wordSize]
    push_cast
    ring
  refine leads_store (x := .cell (heap.size + i)) (locate_cell hrdx haddress) ?_ hw ?_
  · rw [Picture.at]
    simpa [Array.getElem?_append] using hi
  · rw [Picture.put, Array.setIfInBounds_append_right (Nat.le_add_right _ _), Nat.add_sub_cancel_left,
      List.setIfInBounds_toArray]
    exact hrest

/-- the uppermost words come into a vector -/
theorem leads_fillVector (us : Array Word) (as : List Word) (head : Word) (junk done : List Word)
    (hjunk : junk.length = as.length) (hrdx : regs .rdx = word (Heap.address heap.size))
    (hrest : ∀ regs', Keeps regs regs' → regs' .rdx = word (Heap.address heap.size) →
      L.Leads env ⟨regs', flags, us, heap ++ (head :: (as ++ done)).toArray, taken⟩ rest Q) :
    L.Leads env ⟨regs, flags, us ++ as.toArray, heap ++ (head :: (junk ++ done)).toArray, taken⟩
      (plain (Snippet.fillVector as.length) ++ rest) Q := by
  induction as using List.reverseRecOn generalizing regs junk done with
  | nil =>
    obtain rfl := List.length_eq_zero_iff.1 hjunk
    simpa [Snippet.fillVector] using hrest regs (Keeps.refl regs) hrdx
  | append_singleton as a ih =>
    obtain ⟨junk', x, rfl⟩ : ∃ junk' x, junk = junk' ++ [x] := by
      cases junk using List.reverseRecOn with
      | nil => simp at hjunk
      | append_singleton junk' x => exact ⟨junk', x, rfl⟩
    have hlength : junk'.length = as.length := by simpa using hjunk
    have hstack : us ++ (as ++ [a]).toArray = (us ++ as.toArray).push a := by simp
    have hset : (head :: (junk' ++ [x] ++ done)).set (as.length + 1) a = head :: (junk' ++ a :: done) := by
      rw [List.set_cons_succ, ← hlength, List.append_assoc, List.set_append_right _ _ le_rfl]
      simp
    rw [hstack, List.length_append, List.length_singleton, Snippet.fillVector]
    refine leads_pop (by decide) (leads_storeBlock (w := a) (i := as.length + 1) hrdx rfl
      (by simp [hlength]) (gives_reg rfl) ?_)
    rw [hset]
    have hrdx' : setReg regs .rax a .rdx = word (Heap.address heap.size) := hrdx
    refine ih junk' (a :: done) hlength hrdx' fun regs' hkeeps hrdx' => ?_
    have := hrest regs' ⟨hkeeps.rbx, hkeeps.rbp, hkeeps.r12, hkeeps.r13, hkeeps.r14⟩ hrdx'
    simpa using this

theorem leads_mkvec (himport : env.imports "malloc" = some malloc) (hmalloc : Allocates L malloc) (us : Array Word)
    (as : List Word) {n : Nat} (hn : as.length = n) (htaken : taken = heap.size) (hroom : heap.size + (n + 1) ≤ L.words)
    (hslots : us.size < L.slots)
    (hrest : ∀ regs' flags', Keeps regs regs' → L.Leads env ⟨regs', flags', us.push (word (Heap.address heap.size)),
      heap ++ (word n :: as).toArray, taken + (n + 1)⟩ rest Q) :
    L.Leads env ⟨regs, flags, us ++ as.toArray, heap, taken⟩ (plain (Snippet.mkvec n) ++ rest) Q := by
  subst hn
  simp only [Snippet.mkvec, Int.toNat_natCast, plain_append, List.append_assoc]
  refine leads_alloc himport hmalloc (n := as.length + 1) (by push_cast; rfl) htaken hroom
    fun regs₁ flags₁ block hkeeps₁ hrdx₁ hblock => ?_
  obtain ⟨x, junk, rfl⟩ := List.exists_cons_of_length_eq_add_one hblock
  refine leads_storeBlock (i := 0) hrdx₁ rfl (by simp) (gives_imm _) ?_
  rw [List.set_cons_zero, ← List.append_nil junk]
  refine leads_fillVector us as _ junk [] (by simpa using hblock) hrdx₁ fun regs₂ hkeeps₂ hrdx₂ => ?_
  rw [List.append_nil as]
  exact leads_push (gives_reg hrdx₂) hslots (hrest _ _ (hkeeps₁.trans hkeeps₂))

theorem leads_mkfunval (himport : env.imports "malloc" = some malloc) (hmalloc : Allocates L malloc) {body : Label}
    {code vector : Word} (hbody : env.labels body = some code) (htaken : taken = heap.size)
    (hroom : heap.size + 2 ≤ L.words) (hslots : stack.size < L.slots)
    (hrest : ∀ regs' flags', Keeps regs regs' → L.Leads env ⟨regs', flags', stack.push (word (Heap.address heap.size)),
      heap ++ [code, vector].toArray, taken + 2⟩ rest Q) :
    L.Leads env ⟨regs, flags, stack.push vector, heap, taken⟩ (plain (Snippet.mkfunval body) ++ rest) Q := by
  simp only [Snippet.mkfunval, plain_append, List.append_assoc]
  refine leads_alloc himport hmalloc (n := 2) rfl htaken hroom fun regs₁ flags₁ block hkeeps hrdx hblock => ?_
  obtain ⟨x, y, rfl⟩ := List.length_eq_two.1 hblock
  refine leads_leaLabel (by decide) hbody (leads_storeBlock (w := code) (i := 0) hrdx rfl (by simp)
    (gives_reg rfl) (leads_pop (by decide) (leads_storeBlock (w := vector) (i := 1) hrdx rfl (by simp)
    (gives_reg rfl) (leads_push (gives_reg hrdx) hslots (hrest _ _ ?_)))))
  exact ⟨hkeeps.rbx, hkeeps.rbp, hkeeps.r12, hkeeps.r13, hkeeps.r14⟩

/-- a block of two words is copied word by word, also over itself -/
theorem leads_copyPair {target : Mem} {q p : Nat} {a b : Word}
    (htarget : ∀ regs, L.Gives ⟨regs, flags, stack, heap, taken⟩ (.mem target) (word (Heap.address p)))
    (ha : heap[q]? = some a) (hb : (heap.setIfInBounds p a)[q + 1]? = some b) (hp : p + 1 < heap.size)
    (hrest : ∀ regs', Keeps regs regs' →
      L.Leads env ⟨regs', flags, stack, (heap.setIfInBounds p a).setIfInBounds (p + 1) b, taken⟩ rest Q) :
    L.Leads env ⟨regs, flags, stack.push (word (Heap.address q)), heap, taken⟩ (plain (Snippet.copyPair target) ++ rest)
      Q := by
  have haddress (i : Nat) : Heap.address i + 8 = Heap.address (i + 1) := Heap.address_succ i
  refine leads_pop (by decide) (leads_mov (by decide) (htarget _) (leads_mov (by decide)
    (gives_mem (x := .cell q) (locate_cell rfl (Int.add_zero _)) ha) (leads_store (x := .cell p) (w := a)
    (locate_cell rfl (Int.add_zero _)) (by simp [Picture.at]; omega) (gives_reg rfl) (leads_mov (by decide)
    (gives_mem (x := .cell (q + 1)) (locate_cell rfl (haddress q)) hb) (leads_store (x := .cell (p + 1)) (w := b)
    (locate_cell rfl (haddress p)) (by simpa [Picture.at] using hp) (gives_reg rfl) (hrest _ ⟨rfl, rfl, rfl, rfl, rfl⟩))))))

theorem leads_slide (us : Array Word) (as : List Word) (w : Word) (hslots : us.size < L.slots)
    {n : Nat} (hn : as.length = n)
    (hrest : ∀ regs' flags', Keeps regs regs' → L.Leads env ⟨regs', flags', us.push w, heap, taken⟩ rest Q) :
    L.Leads env ⟨regs, flags, (us ++ as.toArray).push w, heap, taken⟩ (plain (Snippet.slide n) ++ rest) Q := by
  subst hn
  rw [Snippet.slide]
  split
  · have htake : (us ++ as.toArray).take us.size = us := by simp
    refine leads_pop (by decide) (leads_drop (n := us.size) (k := as.length) (by simp) ?_)
    rw [htake]
    exact leads_push (gives_reg rfl) hslots (hrest _ _ ⟨rfl, rfl, rfl, rfl, rfl⟩)
  · obtain rfl : as = [] := List.length_eq_zero_iff.1 (by omega)
    simpa using hrest regs flags (Keeps.refl regs)

end Layout
end ThreeMachines.Native
