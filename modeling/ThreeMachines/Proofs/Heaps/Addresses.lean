/-
Addresses of the heap, and how 64 bits compute them.

A heap holds the addresses of its words and no others (`Heap.Holds`); what it does not hold is a bad address, and no
address of code is held (`Heap.not_holds_of_pcOf`).

The operations compute addresses exactly. A machine has 64 bits: a difference that no word holds wraps around, a
remainder takes the sign of the dividend, and a word that counts something is read without a sign. `Heap.Wrapped` and
`Image.Wrapped` are the operations in this arithmetic. A difference wraps around only if it is taken from an address far
below 0, and then it comes out near the greatest word (`toInt_sub_cases`), beyond every word of a heap of fewer than
`2 ^ 58` words and every instruction of a program of fewer than `2 ^ 40`; so there the operations are the same.
-/
import Mathlib.Tactic
import ThreeMachines.Proofs.Success

namespace ThreeMachines

/-! ## Good addresses -/

namespace Heap

/-- a word of the heap lies at the address -/
def Holds (h : Heap) (a : Int) : Prop := ∃ i < h.size, a = address i

/-- the word at a place, or 0 if the heap does not reach there -/
def word (h : Heap) (i : Nat) : Int := h.words[i]?.getD 0

variable {h : Heap} {a : Int} {i : Nat}

theorem address_add_words (i n : Nat) : address (i + n) = address i + wordSize * n := by
  simp only [address, wordSize]
  push_cast
  ring

theorem address_le {i j : Nat} (hij : i ≤ j) : address i ≤ address j := by
  simp only [address, wordSize]
  omega

theorem word_append_zeros (h : Heap) (count i : Nat) : (h.append (List.replicate count 0)).word i = h.word i := by
  rw [word, word]
  by_cases hi : i < h.words.size
  · rw [getElem?_append_old hi]
  · obtain ⟨k, rfl⟩ := Nat.exists_eq_add_of_le (not_lt.1 hi)
    rw [getElem?_append_new, List.getElem?_replicate, Array.getElem?_eq_none (Nat.le_add_right _ _)]
    split <;> rfl

theorem word_set_self (hi : i < h.size) (w : Int) : (h.set i w).word i = w := by
  rw [word, getElem?_set_self hi, Option.getD_some]

theorem word_set_ne {j : Nat} (hij : i ≠ j) (w : Int) : (h.set i w).word j = h.word j := by
  rw [word, word, getElem?_set_ne hij]

theorem index_of_not_holds (ha : ¬ h.Holds a) : h.index a = .error (.badAddress a .heap) := by
  cases hindex : h.index a with
  | ok i =>
    obtain ⟨rfl, hi⟩ := Exec.index_ok hindex
    exact absurd ⟨i, hi, rfl⟩ ha
  | error e =>
    rw [index] at hindex
    split_ifs at hindex
    exact hindex.symm

theorem load_address (hi : i < h.size) : load (address i) h = .ok (h.word i) h := by
  rw [load, index_address hi, word]

theorem load_of_not_holds (ha : ¬ h.Holds a) : load a h = .error (.badAddress a .heap) h := by
  rw [load, index_of_not_holds ha]

theorem store_address (hi : i < h.size) (w : Int) : store (address i) w h = .ok () (h.set i w) := by
  rw [store, index_address hi, set]

theorem store_of_not_holds (ha : ¬ h.Holds a) (w : Int) : store a w h = .error (.badAddress a .heap) h := by
  rw [store, index_of_not_holds ha]

theorem exists_load_iff : (∃ v h', load a h = .ok v h') ↔ h.Holds a := by
  constructor
  · rintro ⟨v, h', hload⟩
    by_contra ha
    rw [load_of_not_holds ha] at hload
    cases hload
  · rintro ⟨i, hi, rfl⟩
    exact ⟨_, _, load_address hi⟩

theorem exists_store_iff (w : Int) : (∃ h', store a w h = .ok () h') ↔ h.Holds a := by
  constructor
  · rintro ⟨h', hstore⟩
    by_contra ha
    rw [store_of_not_holds ha] at hstore
    cases hstore
  · rintro ⟨i, hi, rfl⟩
    exact ⟨_, store_address hi w⟩

/-- all code lies below the heap -/
theorem not_holds_of_pcOf {ι : Type} {image : Image ι} {pc : Nat} (hstop : image.stop < 2 ^ 40)
    (hpc : image.pcOf a = .ok pc) (h : Heap) : ¬ h.Holds a := by
  rw [Image.pcOf] at hpc
  split_ifs at hpc with hin
  rintro ⟨i, -, rfl⟩
  simp only [Image.stop, Image.base, address, base, wordSize] at hstop hin
  omega

end Heap

/-! ## Words of 64 bits -/

/-- a difference that is not negative is exact, and one that wraps around is very great -/
theorem toInt_sub_cases {b : Int} (hb : 0 ≤ b) (hb' : b ≤ 2 ^ 62) (a : Int64) :
    0 ≤ a.toInt - b ∧ (a - Int64.ofInt b).toInt = a.toInt - b ∨
      a.toInt - b < 0 ∧ ((a - Int64.ofInt b).toInt < 0 ∨ 2 ^ 62 ≤ (a - Int64.ofInt b).toInt) := by
  have hle := a.le_toInt
  have hlt := a.toInt_lt
  rw [Int64.toInt_sub, Int64.toInt_ofInt_of_le (by omega) (by omega)]
  by_cases hexact : -2 ^ 63 ≤ a.toInt - b
  · rw [Int.bmod_eq_of_le (by omega) (by omega)]
    omega
  · have hwraps : (a.toInt - b).bmod (2 ^ 64) = a.toInt - b + 2 ^ 64 := by
      rw [← Int.add_bmod_right]
      exact Int.bmod_eq_of_le (by push_cast; omega) (by push_cast; omega)
    omega

section
-- a word and the number that it holds
variable {x : Int64} {n : Int}

theorem toInt_nonneg_iff (hx : x.toInt = n) : 0 ≤ x ↔ 0 ≤ n := by
  rw [Int64.le_iff_toInt_le, Int64.toInt_zero, hx]

theorem toNat_toUInt64 (hx : x.toInt = n) (hn : 0 ≤ n) : x.toUInt64.toNat = n.toNat := by
  rw [Int64.toNat_toUInt64_of_le ((toInt_nonneg_iff hx).2 hn), ← hx]
  rfl

theorem toInt_div_wordSize (hx : x.toInt = n) (hn : 0 ≤ n) : (x / 8).toInt = n / wordSize := by
  have hne : x ≠ Int64.minValue := by
    rintro rfl
    exact absurd ((toInt_nonneg_iff hx).2 hn) (by decide)
  rw [Int64.toInt_div_of_ne_left _ _ hne, hx, Int.tdiv_eq_ediv_of_nonneg hn]
  rfl

theorem mod_wordSize_iff (hx : x.toInt = n) (hn : 0 ≤ n) : x % 8 = 0 ↔ n % wordSize = 0 := by
  rw [← Int64.toInt_inj, Int64.toInt_mod, Int64.toInt_zero, hx, Int.tmod_eq_emod_of_nonneg hn]
  rfl

end

namespace Heap.Wrapped

variable {h : Heap}

def index (h : Heap) (a : Int64) : Except Fault Nat :=
  let offset := a - Int64.ofInt base
  if 0 ≤ offset ∧ offset % 8 = 0 ∧ (offset / 8).toUInt64.toNat < h.words.size then .ok (offset / 8).toUInt64.toNat
  else .error (.badAddress a.toInt .heap)

def alloc (count : Nat) : HeapM Int := fun ⟨words⟩ =>
  .ok (Int64.ofInt base + 8 * Int64.ofNat words.size).toInt ⟨words ++ Array.replicate count 0⟩

def load (a : Int64) : HeapM Int := fun h =>
  match index h a with
  | .ok i => .ok (h.words[i]?.getD 0) h
  | .error fault => .error fault h

def store (a value : Int64) : HeapM Unit := fun h =>
  match index h a with
  | .ok i => .ok () ⟨h.words.setIfInBounds i value.toInt⟩
  | .error fault => .error fault h

theorem index_eq (hsize : h.size < 2 ^ 58) (a : Int64) : index h a = h.index a.toInt := by
  have hcases := toInt_sub_cases (show 0 ≤ base by decide) (by decide) a
  rw [index, Heap.index]
  generalize a - Int64.ofInt base = x at hcases ⊢
  generalize a.toInt - base = offset at hcases ⊢
  rcases hcases with ⟨hnonneg, hx⟩ | ⟨hneg, hwraps⟩
  · have hdiv : 0 ≤ offset / wordSize := Int.ediv_nonneg hnonneg (by decide)
    simp only [toInt_nonneg_iff hx, mod_wordSize_iff hx hnonneg, toNat_toUInt64 (toInt_div_wordSize hx hnonneg) hdiv]
  · rw [if_neg, if_neg fun hin => hneg.not_ge hin.1]
    rintro ⟨hnonneg, -, hlt⟩
    rw [toInt_nonneg_iff rfl] at hnonneg
    have hdiv := toInt_div_wordSize (x := x) rfl hnonneg
    rw [toNat_toUInt64 hdiv (Int.ediv_nonneg hnonneg (by decide)), wordSize] at hlt
    rw [size] at hsize
    omega

theorem load_eq (hsize : h.size < 2 ^ 58) (a : Int64) : load a h = Heap.load a.toInt h := by
  rw [load, index_eq hsize]
  rfl

theorem store_eq (hsize : h.size < 2 ^ 58) (a value : Int64) : store a value h = Heap.store a.toInt value.toInt h := by
  rw [store, index_eq hsize]
  rfl

theorem alloc_eq (hsize : h.size < 2 ^ 58) (count : Nat) : alloc count h = Heap.alloc count h := by
  rw [size] at hsize
  have hoffset : (8 * Int64.ofNat h.words.size).toInt = wordSize * h.words.size := by
    rw [Int64.toInt_mul, Int64.toInt_ofNat_of_lt (by omega), show (8 : Int64).toInt = wordSize from rfl, wordSize]
    exact Int.bmod_eq_of_le (by omega) (by omega)
  have haddress : (Int64.ofInt base + 8 * Int64.ofNat h.words.size).toInt = base + wordSize * h.words.size := by
    rw [Int64.toInt_add, hoffset, Int64.toInt_ofInt_of_le (by decide) (by decide), base, wordSize]
    exact Int.bmod_eq_of_le (by omega) (by omega)
  rw [alloc, Heap.alloc, haddress]

end Heap.Wrapped

namespace Image.Wrapped

variable {ι : Type} {image : Image ι}

def pcOf (image : Image ι) (a : Int64) : Except Fault Nat :=
  let pc := a - Int64.ofInt base
  if 0 ≤ pc ∧ pc.toUInt64.toNat < image.instrs.size then .ok pc.toUInt64.toNat
  else .error (.badAddress a.toInt .code)

theorem pcOf_eq (hstop : image.stop < 2 ^ 40) (a : Int64) : pcOf image a = image.pcOf a.toInt := by
  have hcases := toInt_sub_cases (show 0 ≤ base by decide) (by decide) a
  rw [pcOf, Image.pcOf]
  generalize a - Int64.ofInt base = x at hcases ⊢
  generalize a.toInt - base = pc at hcases ⊢
  rcases hcases with ⟨hnonneg, hx⟩ | ⟨hneg, hwraps⟩
  · simp only [toInt_nonneg_iff hx, toNat_toUInt64 hx hnonneg]
  · rw [if_neg, if_neg fun hin => hneg.not_ge hin.1]
    rintro ⟨hnonneg, hlt⟩
    rw [toInt_nonneg_iff rfl] at hnonneg
    rw [toNat_toUInt64 rfl hnonneg] at hlt
    rw [stop] at hstop
    omega

end Image.Wrapped
end ThreeMachines
