/-
What the work on heap blocks does to the memory.

Word `q` of the heap lies at `Heap.address q`. The heap grows at its end only (`Heap.append`), so a block lies at the size
that the heap had before. The lemmas compute the parts of an instruction that allocate, read and write blocks.
-/
import ThreeMachines.Run.Block
import ThreeMachines.Proofs.Simulation

namespace ThreeMachines

/-! ## Words of the heap -/

namespace Heap

/-- the address of word `q` -/
def address (q : Nat) : Int := base + wordSize * q

/-- a heap with words at its end -/
def append (h : Heap) (ws : List Int) : Heap := ⟨h.words ++ ws.toArray⟩

/-- a heap with another word at a place -/
def set (h : Heap) (q : Nat) (w : Int) : Heap := ⟨h.words.setIfInBounds q w⟩

variable {h : Heap} {p q : Nat} {w : Int} {ws : List Int}

theorem address_inj (hpq : address p = address q) : p = q := by
  simp only [address, wordSize] at hpq
  omega

theorem address_add (q : Nat) (i : Int) (j : Nat) (hi : i = j) : address q + wordSize * (i + 1) = address (q + 1 + j) := by
  subst hi
  simp only [address, wordSize]
  push_cast
  ring

theorem address_succ (q : Nat) : address q + wordSize = address (q + 1) := by
  simp only [address, wordSize]
  push_cast
  ring

theorem index_address (hq : q < h.words.size) : h.index (address q) = .ok q := by
  have hoff : address q - base = wordSize * q := by
    rw [address]
    ring
  rw [index]
  simp only [hoff, wordSize]
  rw [show (8 * (q : Int) / 8).toNat = q by omega, if_pos ⟨by omega, by omega, hq⟩]

@[simp] theorem size_append (h : Heap) (ws : List Int) : (h.append ws).words.size = h.words.size + ws.length := by
  simp [append]

@[simp] theorem size_set (h : Heap) (q : Nat) (w : Int) : (h.set q w).words.size = h.words.size := by
  simp [set]

theorem getElem?_append_old (hq : q < h.words.size) : (h.append ws).words[q]? = h.words[q]? := by
  simp [append, Array.getElem?_append, hq]

theorem getElem?_append_new (h : Heap) (ws : List Int) (i : Nat) :
    (h.append ws).words[h.words.size + i]? = ws[i]? := by
  simp [append, Array.getElem?_append]

theorem getElem?_append_of_some (hq : h.words[q]? = some w) : (h.append ws).words[q]? = some w := by
  have hlt : q < h.words.size := by
    by_contra hge
    rw [Array.getElem?_eq_none (by omega)] at hq
    cases hq
  rw [getElem?_append_old hlt, hq]

theorem getElem?_set_self (hq : q < h.words.size) : (h.set q w).words[q]? = some w := by
  simp [set, hq]

theorem getElem?_set_ne (hpq : q ≠ p) : (h.set q w).words[p]? = h.words[p]? := by
  simp [set, hpq]

theorem append_append (h : Heap) (vs ws : List Int) : (h.append vs).append ws = h.append (vs ++ ws) := by
  simp [append]

@[simp] theorem append_nil (h : Heap) : h.append [] = h := by
  simp [append]

/-- a write into words that have just been appended -/
theorem set_append (h : Heap) (ws : List Int) (i : Nat) (w : Int) :
    (h.append ws).set (h.words.size + i) w = h.append (ws.set i w) := by
  simp [append, set, Array.setIfInBounds_append_right]

theorem set_append_first (h : Heap) (v w : Int) (ws : List Int) :
    (h.append (v :: ws)).set h.words.size w = h.append (w :: ws) := set_append h (v :: ws) 0 w

theorem set_append_second (h : Heap) (u v w : Int) (ws : List Int) :
    (h.append (u :: v :: ws)).set (h.words.size + 1) w = h.append (u :: w :: ws) := set_append h (u :: v :: ws) 1 w

end Heap

namespace Memory

variable {ρ : Type}

/-- the same stack and registers on another heap -/
def onHeap (m : Memory ρ) (heap : Heap) : Memory ρ := { m with heap }

theorem onHeap_push (m : Memory ρ) (a : Int) (heap : Heap) : (m.push a).onHeap heap = (m.onHeap heap).push a := rfl

theorem onHeap_pushes (m : Memory ρ) (as : List Int) (heap : Heap) :
    (m.pushes as).onHeap heap = (m.onHeap heap).pushes as := by
  induction as generalizing m with
  | nil => rfl
  | cons a as ih => exact ih (m.push a)

@[simp] theorem onHeap_heap (m : Memory ρ) (heap : Heap) : (m.onHeap heap).heap = heap := rfl

@[simp] theorem onHeap_onHeap (m : Memory ρ) (h h' : Heap) : (m.onHeap h).onHeap h' = m.onHeap h' := rfl

end Memory

/-! ## Parts of an instruction -/

namespace Exec

variable {ι ρ : Type} {m : Memory ρ} {pc r : Nat} {p q : Nat} {a b : Int}

open Heap (address)

theorem alloc_at (m : Memory ρ) (count : Nat) :
    alloc count (m.at_ pc r) =
      .ok (address m.heap.words.size) ((m.onHeap (m.heap.append (List.replicate count 0))).at_ pc r) := by
  simp [alloc, onHeap, Memory.onHeap, Heap.alloc, Memory.at_, Heap.address, Heap.append]

theorem load_at (h : m.heap.words[q]? = some a) : load (address q) (m.at_ pc r) = .ok a (m.at_ pc r) := by
  have hq : q < m.heap.words.size := by
    by_contra hge
    rw [Array.getElem?_eq_none (by omega)] at h
    cases h
  simp [load, onHeap, Heap.load, Memory.at_, Heap.index_address hq, h]

theorem store_at (hq : q < m.heap.words.size) (a : Int) :
    store (address q) a (m.at_ pc r) = .ok () ((m.onHeap (m.heap.set q a)).at_ pc r) := by
  simp [store, onHeap, Memory.onHeap, Heap.store, Memory.at_, Heap.index_address hq, Heap.set]

theorem element_at {g j : Nat} {i : Int} (hi : i = j) (h : m.heap.words[g + 1 + j]? = some a) :
    element (address g) i (m.at_ pc r) = .ok a (m.at_ pc r) := by
  rw [element, Heap.address_add g i j hi]
  exact load_at h

theorem makePair_at (m : Memory ρ) (a b : Int) :
    makePair a b (m.at_ pc r) =
      .ok (address m.heap.words.size) ((m.onHeap (m.heap.append [a, b])).at_ pc r) := by
  simp only [makePair, bind_apply, alloc_at, List.replicate]
  rw [store_at (by simp)]
  simp only [Memory.onHeap_heap, Memory.onHeap_onHeap, Heap.set_append_first, Heap.address_succ]
  rw [store_at (by simp)]
  simp only [Memory.onHeap_heap, Memory.onHeap_onHeap, Heap.set_append_second, pure_apply]

theorem copyPair_at (ha : m.heap.words[q]? = some a) (hb : m.heap.words[q + 1]? = some b)
    (hp : p + 1 < m.heap.words.size) (hqp : p ≠ q + 1) :
    copyPair (address q) (address p) (m.at_ pc r) =
      .ok () ((m.onHeap ((m.heap.set p a).set (p + 1) b)).at_ pc r) := by
  simp only [copyPair, bind_apply, load_at ha]
  rw [store_at (by omega)]
  simp only [Heap.address_succ]
  rw [load_at (a := b) (by rw [Memory.onHeap_heap, Heap.getElem?_set_ne hqp, hb])]
  simp only []
  rw [store_at (by simpa using hp)]
  rfl

theorem fillVector_at (m : Memory ρ) (heap : Heap) (n : Int) (as done : List Int) (pc r : Nat) :
    fillVector (address heap.words.size) as.length
        (((m.onHeap (heap.append (n :: (List.replicate as.length 0 ++ done)))).pushes as).at_ pc r) =
      .ok () ((m.onHeap (heap.append (n :: (as ++ done)))).at_ pc r) := by
  induction as using List.reverseRecOn generalizing done with
  | nil => rfl
  | append_singleton as a ih =>
    have hset : (heap.append (n :: (List.replicate (as.length + 1) 0 ++ done))).set (heap.words.size + (as.length + 1))
        a = heap.append (n :: (List.replicate as.length 0 ++ a :: done)) := by
      rw [Heap.set_append, List.set_cons_succ, List.replicate_succ', List.append_assoc,
        List.set_append_right _ _ (by simp)]
      simp
    rw [List.length_append, List.length_singleton, fillVector, Memory.pushes_append, Memory.pushes_cons,
      Memory.pushes_nil]
    simp only [bind_apply, pop_at]
    rw [Heap.address_add _ _ as.length rfl, store_at (by simp; omega)]
    simp only [Memory.pushes_heap, Memory.onHeap_heap, Memory.onHeap_pushes, Memory.onHeap_onHeap]
    rw [Nat.add_assoc, Nat.add_comm 1, hset, ih (a :: done), List.append_assoc, List.singleton_append]

theorem makeVector_at (m : Memory ρ) (as : List Int) :
    makeVector as.length ((m.pushes as).at_ pc r) =
      .ok (address m.heap.words.size) ((m.onHeap (m.heap.append (as.length :: as))).at_ pc r) := by
  have hfill := fillVector_at m m.heap as.length as [] pc r
  rw [List.append_nil, List.append_nil] at hfill
  simp only [makeVector, stackOffset, if_pos (Int.natCast_nonneg as.length), Int.toNat_natCast, bind_apply, check_ok,
    alloc_at, Memory.pushes_heap, List.replicate_succ]
  rw [store_at (by simp)]
  simp only [Memory.onHeap_heap, Memory.onHeap_onHeap, Memory.onHeap_pushes, Memory.pushes_heap, Heap.set_append_first, hfill,
    pure_apply]

theorem makeFunction_at {image : Image ι} {body : Label} {code : Nat} (m : Memory ρ) (vector : Int)
    (h : image.target body = .ok code) :
    makeFunction image body ((m.push vector).at_ pc r) =
      .ok (address m.heap.words.size) ((m.onHeap (m.heap.append [Image.base + code, vector])).at_ pc r) := by
  simp only [makeFunction, bind_apply, alloc_at, Image.addressOf_of_target h, check_ok, Memory.push_heap,
    List.replicate]
  rw [store_at (by simp)]
  simp only [Memory.onHeap_heap, Memory.onHeap_onHeap, Memory.push_heap, Heap.set_append_first, Memory.onHeap_push, pop_at,
    Heap.address_succ]
  rw [store_at (by simp)]
  simp only [Memory.onHeap_heap, Memory.onHeap_onHeap, Heap.set_append_second, pure_apply]

end Exec
end ThreeMachines
