/-
Histories of a heap.

A history is a list of requests for blocks and words, answered one after the other on one heap. `Effect` says all that a
request can do; from it follows what each request does to the size of the heap, to its blocks and to its words, and by
induction what a whole history does:

- it adds as many words as its requests ask for (`size_after`);
- its blocks lie one after the other and fill the heap (`laid_history`), so that no two share a byte
  (`Laid.apart`);
- a word is the last value that was stored at its address, or what it was before (`word_after`).

`histories_faithful` puts this together for a heap that was empty, and adds that the answers are those of a machine of 64
bits.
-/
import ThreeMachines.Proofs.Heaps.Addresses

namespace ThreeMachines.Heap

/-! ## Blocks in a row -/

/-- words from an address on -/
structure Block where
  address : Int
  count : Nat
deriving DecidableEq, Repr

namespace Block

/-- the first address after the block -/
def stop (b : Block) : Int := b.address + wordSize * b.count

/-- a byte at an address of the block; a block without words covers none -/
def Covers (b : Block) (x : Int) : Prop := b.address ≤ x ∧ x < b.stop

end Block

/-- blocks that lie one after the other, from one word to another -/
def Laid : Nat → Nat → List Block → Prop
  | i, j, [] => i = j
  | i, j, b :: bs => b.address = address i ∧ Laid (i + b.count) j bs

section
variable {i j k : Nat} {a : Int} {bs cs : List Block}

theorem Laid.le (h : Laid i j bs) : i ≤ j := by
  induction bs generalizing i with
  | nil => exact (show i = j from h).le
  | cons b bs ih => exact (Nat.le_add_right i b.count).trans (ih h.2)

theorem Laid.append (hbs : Laid i j bs) (hcs : Laid j k cs) : Laid i k (bs ++ cs) := by
  induction bs generalizing i with
  | nil => exact (show i = j from hbs) ▸ hcs
  | cons b bs ih => exact ⟨hbs.1, ih hbs.2⟩

/-- the words of the blocks are the words between the two -/
theorem Laid.mem_iff (h : Laid i j bs) :
    (∃ b ∈ bs, ∃ n < b.count, a = b.address + wordSize * n) ↔ ∃ m, i ≤ m ∧ m < j ∧ a = address m := by
  induction bs generalizing i with
  | nil =>
    obtain rfl : i = j := h
    exact iff_of_false (by simp) (by omega)
  | cons b bs ih =>
    obtain ⟨haddress, hrest⟩ := h
    have hle := hrest.le
    rw [List.exists_mem_cons_iff, ih hrest, haddress]
    constructor
    · rintro (⟨n, hn, rfl⟩ | ⟨m, him, hmj, rfl⟩)
      · exact ⟨i + n, by omega, by omega, (address_add_words i n).symm⟩
      · exact ⟨m, by omega, hmj, rfl⟩
    · rintro ⟨m, him, hmj, rfl⟩
      by_cases hm : m < i + b.count
      · refine .inl ⟨m - i, by omega, ?_⟩
        rw [← address_add_words, Nat.add_sub_cancel' him]
      · exact .inr ⟨m, by omega, hmj, rfl⟩

/-- no block begins before the first word -/
theorem Laid.address_le_of_mem (h : Laid i j bs) : ∀ b ∈ bs, address i ≤ b.address := by
  induction bs generalizing i with
  | nil => exact nofun
  | cons b bs ih =>
    obtain ⟨haddress, hrest⟩ := h
    refine List.forall_mem_cons.2 ⟨haddress.ge, fun c hc => ?_⟩
    exact (address_le (Nat.le_add_right i b.count)).trans (ih hrest c hc)

/-- **Blocks.** No byte belongs to two of them. -/
theorem Laid.apart (h : Laid i j bs) : bs.Pairwise fun b c => ∀ x, b.Covers x → ¬ c.Covers x := by
  induction bs generalizing i with
  | nil => exact .nil
  | cons b bs ih =>
    obtain ⟨haddress, hrest⟩ := h
    refine .cons (fun c hc => ?_) (ih hrest)
    have hstop : b.stop ≤ c.address := by
      rw [Block.stop, haddress, ← address_add_words]
      exact hrest.address_le_of_mem c hc
    exact fun x hb hx => absurd (hb.2.trans_le hstop) hx.1.not_gt

end

/-! ## Requests -/

/-- what a program can ask of its heap -/
inductive Request where
  | alloc (count : Nat)
  | load (address : Int64)
  | store (address value : Int64)
deriving Repr

namespace Request

/-- how many words the request adds -/
def count : Request → Nat
  | alloc count => count
  | load _ | store _ _ => 0

/-- the address that the request names -/
def address? : Request → Option Int64
  | alloc _ => none
  | load a | store a _ => some a

end Request

inductive Answer where
  | block (address : Int)
  | value (word : Int)
  | done
deriving Repr

def perform : Request → HeapM Answer
  | .alloc count => return .block (← alloc count)
  | .load a => return .value (← load a.toInt)
  | .store a w => do
    store a.toInt w.toInt
    return .done

/-- one request, with addresses computed in 64 bits -/
def Wrapped.perform : Request → HeapM Answer
  | .alloc count => return .block (← Wrapped.alloc count)
  | .load a => return .value (← Wrapped.load a)
  | .store a w => do
    Wrapped.store a w
    return .done

/-- a request of a history, and what came of it -/
structure Event where
  request : Request
  outcome : EStateM.Result Fault Heap Answer

namespace Event

def after (e : Event) : Heap :=
  match e.outcome with
  | .ok _ h | .error _ h => h

/-- the block that was given out -/
def blocks (e : Event) : List Block :=
  match e.request, e.outcome with
  | .alloc count, .ok (.block address) _ => [⟨address, count⟩]
  | _, _ => []

/-- the value that was stored at an address -/
def stored? (a : Int) (e : Event) : Option Int :=
  match e.request, e.outcome with
  | .store b w, .ok _ _ => if b.toInt = a then some w.toInt else none
  | _, _ => none

end Event

/-- one request -/
def event (answer : Request → HeapM Answer) (h : Heap) (r : Request) : Event := ⟨r, answer r h⟩

/-- requests one after the other -/
def history (answer : Request → HeapM Answer) (h : Heap) : List Request → List Event
  | [] => []
  | r :: rs => event answer h r :: history answer (event answer h r).after rs

/-- the heap after requests -/
def after (h : Heap) : List Request → Heap
  | [] => h
  | r :: rs => after (event perform h r).after rs

/-- how many words requests ask for -/
def requested : List Request → Nat
  | [] => 0
  | r :: rs => r.count + requested rs

/-- the values that were stored at an address, the last one last -/
def storedAt (a : Int) (events : List Event) : List Int := events.filterMap (Event.stored? a)

section
variable {h : Heap} {rs more : List Request}

theorem after_append : after h (rs ++ more) = after (after h rs) more := by
  induction rs generalizing h with
  | nil => rfl
  | cons r rs ih => exact ih

/-! ## One request -/

/-- what a request does, and when -/
inductive Effect (h : Heap) : Request → EStateM.Result Fault Heap Answer → Prop where
  | allocated (count : Nat) :
    Effect h (.alloc count) (.ok (.block (address h.size)) (h.append (List.replicate count 0)))
  | loaded {a : Int64} {i : Nat} (ha : a.toInt = address i) (hi : i < h.size) :
    Effect h (.load a) (.ok (.value (h.word i)) h)
  | stored {a : Int64} {i : Nat} (w : Int64) (ha : a.toInt = address i) (hi : i < h.size) :
    Effect h (.store a w) (.ok .done (h.set i w.toInt))
  | refused {r : Request} {a : Int64} (hr : r.address? = some a) (ha : ¬ h.Holds a.toInt) :
    Effect h r (.error (.badAddress a.toInt .heap) h)

/-- **Requests.** There is nothing else that a request does. -/
theorem effect_perform (h : Heap) (r : Request) : Effect h r (perform r h) := by
  cases r with
  | alloc count =>
    have halloc : perform (.alloc count) h = .ok (.block (address h.size)) (h.append (List.replicate count 0)) := by
      simp [perform, bind_apply, pure_apply, alloc, address, append, size]
    exact halloc ▸ .allocated count
  | load a =>
    rw [perform, bind_apply]
    by_cases ha : h.Holds a.toInt
    · obtain ⟨i, hi, ha⟩ := ha
      rw [ha, load_address hi]
      exact .loaded ha hi
    · rw [load_of_not_holds ha]
      exact .refused rfl ha
  | store a w =>
    rw [perform, bind_apply]
    by_cases ha : h.Holds a.toInt
    · obtain ⟨i, hi, ha⟩ := ha
      rw [ha, store_address hi]
      exact .stored w ha hi
    · rw [store_of_not_holds ha]
      exact .refused rfl ha

/-! Each of these goes through the effects, with the outcome as a variable that they fix. -/

theorem size_event (h : Heap) (r : Request) : (event perform h r).after.size = h.size + r.count := by
  have heffect := effect_perform h r
  rw [event]
  generalize perform r h = outcome at heffect
  cases heffect with
  | allocated count => simp [Event.after, Request.count, size]
  | loaded => rfl
  | stored => simp [Event.after, Request.count, size]
  | refused hr =>
    cases r with
    | alloc => cases hr
    | load | store => rfl

/-- a word is the one that was stored in it, or the one that it was -/
theorem word_event (h : Heap) (r : Request) (i : Nat) :
    (event perform h r).after.word i = ((event perform h r).stored? (address i)).getD (h.word i) := by
  have heffect := effect_perform h r
  rw [event]
  generalize perform r h = outcome at heffect
  cases heffect with
  | allocated count => exact word_append_zeros h count i
  | loaded => rfl
  | @stored a j w ha hj =>
    simp only [Event.stored?, Event.after, ha]
    by_cases hij : j = i
    · subst hij
      rw [if_pos rfl, Option.getD_some, word_set_self hj]
    · rw [if_neg fun h => hij (address_inj h), Option.getD_none, word_set_ne hij]
  | refused =>
    cases r with
    | alloc | load | store => rfl

theorem laid_event (h : Heap) (r : Request) :
    Laid h.size (event perform h r).after.size (event perform h r).blocks := by
  have hsize := size_event h r
  have heffect := effect_perform h r
  rw [event] at hsize ⊢
  generalize perform r h = outcome at heffect hsize ⊢
  cases heffect with
  | allocated count => exact ⟨rfl, hsize.symm⟩
  | loaded | stored => exact hsize.symm
  | refused hr =>
    cases r with
    | alloc => cases hr
    | load | store => exact hsize.symm

/-! ## Histories -/

theorem size_after (h : Heap) (rs : List Request) : (after h rs).size = h.size + requested rs := by
  induction rs generalizing h with
  | nil => rfl
  | cons r rs ih => rw [after, ih, size_event, requested, Nat.add_assoc]

/-- **Words.** A word is the last one that was stored in it, or the one that it was. -/
theorem word_after (h : Heap) (rs : List Request) (i : Nat) :
    (after h rs).word i = (storedAt (address i) (history perform h rs)).getLastD (h.word i) := by
  induction rs generalizing h with
  | nil => rfl
  | cons r rs ih =>
    rw [after, ih, word_event, history, storedAt, storedAt, List.filterMap_cons]
    cases (event perform h r).stored? (address i) with
    | none => rfl
    | some w => exact (List.getLastD_cons ..).symm

theorem laid_history (h : Heap) (rs : List Request) :
    Laid h.size (after h rs).size ((history perform h rs).flatMap Event.blocks) := by
  induction rs generalizing h with
  | nil => rfl
  | cons r rs ih => exact (laid_event h r).append (ih _)

theorem Wrapped.perform_eq (hsize : h.size < 2 ^ 58) (r : Request) : Wrapped.perform r h = Heap.perform r h := by
  cases r with
  | alloc count => simp only [Wrapped.perform, Heap.perform, bind_apply, alloc_eq hsize]
  | load a => simp only [Wrapped.perform, Heap.perform, bind_apply, load_eq hsize]
  | store a w => simp only [Wrapped.perform, Heap.perform, bind_apply, store_eq hsize]

/-- **64 bits.** As long as the heap stays small enough, all answers are the same. -/
theorem Wrapped.history_eq (hsize : h.size + requested rs < 2 ^ 58) :
    history Wrapped.perform h rs = history Heap.perform h rs := by
  induction rs generalizing h with
  | nil => rfl
  | cons r rs ih =>
    rw [requested] at hsize
    have hevent : event Wrapped.perform h r = event Heap.perform h r :=
      congrArg (Event.mk r) (perform_eq (by omega) r)
    have hrest : (event Heap.perform h r).after.size + requested rs < 2 ^ 58 := by
      rw [size_event]
      omega
    rw [history, history, hevent, ih hrest]

end

/-! ## What holds after every history -/

/-- the blocks that requests have been given, on a heap that was empty -/
def blocks (rs : List Request) : List Block := (history perform empty rs).flatMap Event.blocks

/-- what holds after requests, on a heap that was empty -/
structure Faithful (rs : List Request) : Prop where
  /-- 64 bits are enough: if sums and differences wrap around, all answers are the same, and so is the next one -/
  in64 : history Wrapped.perform empty rs = history perform empty rs ∧
    ∀ r, Wrapped.perform r (after empty rs) = perform r (after empty rs)
  /-- the heap has the words that were asked for -/
  size : (after empty rs).size = requested rs
  /-- no two blocks share a byte -/
  apart : (blocks rs).Pairwise fun b c => ∀ x, b.Covers x → ¬ c.Covers x
  /-- every word belongs to a block, and every word of a block is there -/
  filled : ∀ a, (after empty rs).Holds a ↔ ∃ b ∈ blocks rs, ∃ n < b.count, a = b.address + wordSize * n
  /-- the addresses of words are good, and no others -/
  loads : ∀ a, (∃ v h, load a (after empty rs) = .ok v h) ↔ ∃ i < (after empty rs).size, a = base + wordSize * i
  stores : ∀ a w, (∃ h, store a w (after empty rs) = .ok () h) ↔
    ∃ i < (after empty rs).size, a = base + wordSize * i
  /-- a good address stays good -/
  stays : ∀ more a, (after empty rs).Holds a → (after empty (rs ++ more)).Holds a
  /-- what is loaded is the last value that was stored at this address, or 0 if there is none -/
  last : ∀ a v h, load a (after empty rs) = .ok v h →
    v = (storedAt a (history perform empty rs)).getLastD 0 ∧ h = after empty rs
  /-- a request that fails names no address of a word, and leaves the heap as it was -/
  unchanged : ∀ r e h, perform r (after empty rs) = .error e h →
    h = after empty rs ∧ ∃ a, r.address? = some a ∧ e = .badAddress a.toInt .heap ∧ ¬ h.Holds a.toInt
  /-- no address of code is one of a word, computed exactly or in 64 bits -/
  code : ∀ {ι : Type} (image : Image ι), image.stop < 2 ^ 40 → ∀ a : Int64,
    Image.Wrapped.pcOf image a = image.pcOf a.toInt ∧
      ∀ pc, image.pcOf a.toInt = .ok pc → ¬ (after empty rs).Holds a.toInt

theorem size_after_empty (rs : List Request) : (after empty rs).size = requested rs :=
  (size_after empty rs).trans (Nat.zero_add _)

/-- **Histories of a heap.** Whatever is asked of an empty heap, as long as it is less than `2 ^ 58` words, what holds
then is `Faithful`. Only 64 bits need the bound. -/
theorem histories_faithful {rs : List Request} (hrs : requested rs < 2 ^ 58) : Faithful rs where
  in64 := by
    have hstart : empty.size + requested rs < 2 ^ 58 := (Nat.zero_add _).trans_lt hrs
    have hend : (after empty rs).size < 2 ^ 58 := (size_after_empty rs).trans_lt hrs
    exact ⟨Wrapped.history_eq hstart, Wrapped.perform_eq hend⟩
  size := size_after_empty rs
  apart := (laid_history empty rs).apart
  filled a := by
    rw [blocks, (laid_history empty rs).mem_iff]
    simp [Holds, show empty.size = 0 from rfl]
  loads a := exists_load_iff
  stores a w := exists_store_iff w
  stays more a := by
    rintro ⟨i, hi, rfl⟩
    refine ⟨i, ?_, rfl⟩
    rw [after_append, size_after]
    omega
  last a v h hload := by
    obtain ⟨i, hi, rfl⟩ := exists_load_iff.1 ⟨v, h, hload⟩
    rw [load_address hi] at hload
    cases hload
    exact ⟨word_after empty rs i, rfl⟩
  unchanged r e h he := by
    have heffect := effect_perform (after empty rs) r
    rw [he] at heffect
    cases heffect with
    | refused hr ha => exact ⟨rfl, _, hr, rfl, ha⟩
  code image hstop a := ⟨Image.Wrapped.pcOf_eq hstop a, fun pc hpc => not_holds_of_pcOf hstop hpc _⟩

/-- a store before there is a block, a block without words, two stores in one place, and addresses between two words and
at the lower end of all words -/
def interleaved : List Request :=
  [.store 0x100000000008 1, .alloc 2, .alloc 0, .store 0x100000000008 42, .alloc 1, .store 0x100000000008 (-1),
    .store 0x100000000004 7, .load 0x100000000000, .load Int64.minValue]

theorem histories_interleaved : requested interleaved < 2 ^ 58 ∧
    blocks interleaved = [⟨base, 2⟩, ⟨base + 16, 0⟩, ⟨base + 16, 1⟩] ∧
    storedAt (base + 8) (history perform empty interleaved) = [42, -1] ∧ Faithful interleaved :=
  ⟨by decide, by decide, by decide, histories_faithful (by decide)⟩

end ThreeMachines.Heap
