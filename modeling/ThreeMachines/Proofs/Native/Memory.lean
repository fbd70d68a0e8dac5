/-
The memory of the processor.

Memory is an array of bytes, not all of which need be there. A word is eight bytes, the lowest first; it can be read or
written where all its bytes are there. Two words that have no byte in common do not see each other's writes.

- `read_store`: a word that has been written is read back.
- `read_store_apart`: other words stay.
-/
import Mathlib.Tactic

namespace ThreeMachines.Native

/-- what a register or eight bytes of memory hold -/
abbrev Word := BitVec 64

/-- the word of an integer -/
abbrev word (n : Int) : Word := BitVec.ofInt 64 n

/-- bytes at addresses; nothing stands for an address that must not be used -/
abbrev Bytes := Word → Option (BitVec 8)

namespace Bytes

/-- the word at an address -/
def read (m : Bytes) (a : Word) : Option Word :=
  match m a, m (a + 1), m (a + 2), m (a + 3), m (a + 4), m (a + 5), m (a + 6), m (a + 7) with
  | some b₀, some b₁, some b₂, some b₃, some b₄, some b₅, some b₆, some b₇ =>
    some (b₇ ++ b₆ ++ b₅ ++ b₄ ++ b₃ ++ b₂ ++ b₁ ++ b₀)
  | _, _, _, _, _, _, _, _ => none

/-- the memory with another word at an address -/
def store (m : Bytes) (a w : Word) : Bytes := fun b =>
  if (b - a).toNat < 8 then some (w.extractLsb' (8 * (b - a).toNat) 8) else m b

/-- the words at the two addresses have no byte in common -/
def Apart (a b : Word) : Prop := 8 ≤ (b - a).toNat ∧ 8 ≤ (a - b).toNat

variable {m : Bytes} {a b w : Word}

theorem Apart.symm (h : Apart a b) : Apart b a := ⟨h.2, h.1⟩

theorem apart_of_le (h : a.toNat + 8 ≤ b.toNat) (hb : b.toNat + 8 ≤ 2 ^ 64) : Apart a b := by
  constructor <;> rw [BitVec.toNat_sub] <;> omega

/-- byte `i` of the word that has just been written -/
theorem store_byte {i : Word} (hi : i.toNat < 8) : m.store a w (a + i) = some (w.extractLsb' (8 * i.toNat) 8) := by
  have hsub : a + i - a = i := by rw [BitVec.add_comm, BitVec.add_sub_cancel]
  rw [store, hsub, if_pos hi]

/-- the bytes of a word, put together again -/
theorem append_bytes (w : Word) :
    w.extractLsb' 56 8 ++ w.extractLsb' 48 8 ++ w.extractLsb' 40 8 ++ w.extractLsb' 32 8 ++ w.extractLsb' 24 8 ++
      w.extractLsb' 16 8 ++ w.extractLsb' 8 8 ++ w.extractLsb' 0 8 = w := by
  ext i hi
  rw [← BitVec.getLsbD_eq_getElem (x := w)]
  simp only [BitVec.getElem_append, BitVec.getElem_extractLsb']
  split_ifs
  all_goals
    congr 1
    omega

/-- **Reading back.** -/
theorem read_store (m : Bytes) (a w : Word) : (m.store a w).read a = some w := by
  have h₀ : m.store a w a = some (w.extractLsb' 0 8) := by simpa using store_byte (m := m) (a := a) (w := w) (i := 0) (by decide)
  rw [read, h₀, store_byte (by decide), store_byte (by decide), store_byte (by decide), store_byte (by decide),
    store_byte (by decide), store_byte (by decide), store_byte (by decide)]
  exact congrArg some (append_bytes w)

theorem store_byte_apart {i : Word} (h : Apart a b) (hi : i.toNat < 8) : m.store a w (b + i) = m (b + i) := by
  rw [store, if_neg]
  obtain ⟨h₁, h₂⟩ := h
  rw [BitVec.toNat_sub] at h₁ h₂ ⊢
  rw [BitVec.toNat_add]
  have ha := a.isLt
  have hb := b.isLt
  omega

/-- **Other words** stay as they are. -/
theorem read_store_apart (h : Apart a b) : (m.store a w).read b = m.read b := by
  have h₀ : m.store a w b = m b := by simpa using store_byte_apart (m := m) (w := w) (i := 0) h (by decide)
  rw [read, h₀, store_byte_apart h (by decide), store_byte_apart h (by decide), store_byte_apart h (by decide),
    store_byte_apart h (by decide), store_byte_apart h (by decide), store_byte_apart h (by decide),
    store_byte_apart h (by decide), read]

/-- a word that could be read still can -/
theorem isSome_read_store (h : (m.read b).isSome) (hab : a = b ∨ Apart a b) : ((m.store a w).read b).isSome := by
  rcases hab with rfl | hab
  · rw [read_store]
    rfl
  · rwa [read_store_apart hab]

end Bytes
end ThreeMachines.Native
