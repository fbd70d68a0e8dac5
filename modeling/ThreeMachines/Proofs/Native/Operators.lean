/-
Operators in native code.

The word of an integer is its remainder modulo 2^64, so sums, differences and products need no care; comparisons,
quotients and truth values need the integers to be words.

- `holds_difference`, `holds_logical`: what `cmp` and `test` leave decides as the integers do.
- `exec_idiv`: `idiv` has a quotient where the integers have one that is a word.
-/
import ThreeMachines.Native.Snippet
import ThreeMachines.Proofs.Native.Processor
import ThreeMachines.Proofs.Words

namespace ThreeMachines.Native

/-! ## Words of integers -/

theorem word_add (m n : Int) : word (m + n) = word m + word n := BitVec.ofInt_add m n

theorem word_neg (n : Int) : word (-n) = -word n := BitVec.ofInt_neg

theorem word_sub (m n : Int) : word (m - n) = word m - word n := by
  rw [Int.sub_eq_add_neg, word_add, word_neg, ← BitVec.sub_eq_add_neg]

theorem word_mul (m n : Int) : word (m * n) = word m * word n := BitVec.ofInt_mul m n

theorem word_wrap (n : Int) : word (wrap n) = word n := by
  refine BitVec.eq_of_toInt_eq ?_
  rw [BitVec.toInt_ofInt, BitVec.toInt_ofInt, wrap, wordCount]
  exact Int.bmod_bmod

theorem toNat_word {n : Nat} (h : n < 2 ^ 64) : (word n).toNat = n := by
  rw [word, BitVec.ofInt_natCast, BitVec.toNat_ofNat, Nat.mod_eq_of_lt h]

theorem toInt_word {n : Int} (h : isWord n) : (word n).toInt = n := by
  rw [isWord_iff, leastWord, greatestWord] at h
  rw [BitVec.toInt_ofInt]
  exact Int.bmod_eq_of_le (by norm_num; omega) (by norm_num; omega)

theorem word_inj {m n : Int} (hm : isWord m) (hn : isWord n) : word m = word n ↔ m = n :=
  ⟨fun h => by rw [← toInt_word hm, h, toInt_word hn], fun h => by rw [h]⟩

theorem word_eq_zero {n : Int} (h : isWord n) : word n = 0 ↔ n = 0 := word_inj h (n := 0) (by decide)

/-! ## Conditions -/

theorem difference_zero (a b : Word) : (Flags.difference a b).zero = decide (a = b) := by
  rw [Flags.difference]
  by_cases h : a = b
  · simp [h]
  · simp [h, BitVec.sub_eq_iff_eq_add]

/-- the sign of the difference, corrected by the overflow, tells which word is less -/
theorem difference_less (a b : Word) :
    ((Flags.difference a b).sign != (Flags.difference a b).overflow) = decide (a.toInt < b.toInt) := by
  have ha₁ := a.le_toInt
  have ha₂ := a.toInt_lt
  have hb₁ := b.le_toInt
  have hb₂ := b.toInt_lt
  have hd : (a - b).toInt < 0 ↔ a.toInt - b.toInt < 0 ∧ -2 ^ 63 ≤ a.toInt - b.toInt ∨ 2 ^ 63 ≤ a.toInt - b.toInt := by
    rw [BitVec.toInt_sub, Int.bmod_def]
    split <;> omega
  simp only [Flags.difference, BitVec.msb_eq_toInt, hd]
  by_cases h₁ : a.toInt < 0 <;> by_cases h₂ : b.toInt < 0 <;>
    by_cases h₃ : a.toInt - b.toInt < 0 ∧ -2 ^ 63 ≤ a.toInt - b.toInt ∨ 2 ^ 63 ≤ a.toInt - b.toInt <;>
    simp only [h₁, h₂, h₃] <;> simp <;> omega

/-- two bits are equal where they are not different -/
theorem eq_of_bne (p q : Bool) {r : Bool} (h : (p != q) = r) : (p == q) = !r := by
  rw [← h]
  cases p <;> cases q <;> rfl

theorem holds_difference {v w : Int} (hv : isWord v) (hw : isWord w) (cond : Cond) :
    cond.holds (.difference (word v) (word w)) = match cond with
      | .e => decide (v = w)
      | .ne => decide (v ≠ w)
      | .l => decide (v < w)
      | .g => decide (v > w)
      | .le => decide (v ≤ w)
      | .ge => decide (v ≥ w) := by
  have hz : (Flags.difference (word v) (word w)).zero = decide (v = w) := by
    rw [difference_zero]
    exact decide_eq_decide.2 (word_inj hv hw)
  have hl := difference_less (word v) (word w)
  rw [toInt_word hv, toInt_word hw] at hl
  cases cond with
  | e => exact hz
  | ne => simp [Cond.holds, hz]
  | l => exact hl
  | g =>
    rw [Cond.holds, hz, eq_of_bne _ _ hl, Bool.eq_iff_iff]
    simp only [Bool.and_eq_true, Bool.not_eq_true', decide_eq_false_iff_not, decide_eq_true_eq]
    omega
  | le =>
    rw [Cond.holds, hz, hl, Bool.eq_iff_iff]
    simp only [Bool.or_eq_true, decide_eq_true_eq]
    omega
  | ge =>
    rw [Cond.holds, eq_of_bne _ _ hl, Bool.eq_iff_iff]
    simp only [Bool.not_eq_true', decide_eq_false_iff_not, decide_eq_true_eq]
    omega

theorem holds_logical {v : Int} (hv : isWord v) :
    Cond.holds (.logical (word v &&& word v)) .e = decide (v = 0) ∧
      Cond.holds (.logical (word v &&& word v)) .ne = decide (v ≠ 0) := by
  have hzero : (Flags.logical (word v &&& word v)).zero = decide (v = 0) := by
    rw [BitVec.and_self]
    exact (beq_eq_decide _ _).trans (decide_eq_decide.2 (word_eq_zero hv))
  exact ⟨hzero, by rw [Cond.holds, hzero, decide_not]⟩

/-! ## Bytes of registers -/

/-- the byte of a condition -/
def bit (p : Bool) : BitVec 8 := if p then 1 else 0

theorem setWidth_bit (p : Bool) : (bit p).setWidth 64 = word (truth p) := by
  cases p <;> rfl

theorem and_bit (p q : Bool) : ByteArith.and.eval (bit p) (bit q) = bit (p && q) := by
  cases p <;> cases q <;> rfl

theorem or_bit (p q : Bool) : ByteArith.or.eval (bit p) (bit q) = bit (p || q) := by
  cases p <;> cases q <;> rfl

/-- a word with another lowest byte -/
def withByte (w : Word) (x : BitVec 8) : Word := w.extractLsb' 8 56 ++ x

@[simp] theorem setWidth_withByte (w : Word) (x : BitVec 8) : (withByte w x).setWidth 8 = x :=
  BitVec.setWidth_append_eq_right

/-! ## Quotients -/

/-- the sign of rax in all bits of rdx makes the dividend the word in rax -/
theorem toInt_dividend (x : Word) : ((if x.msb then -1 else 0 : Word) ++ x).toInt = x.toInt := by
  rw [BitVec.toInt_append, if_neg (by decide), BitVec.toInt_eq_msb_cond x]
  cases x.msb with
  | false => simp
  | true =>
    have hsign : (-1 : Word).toInt = -1 := by decide
    rw [if_pos rfl, if_pos rfl, hsign]
    ring

/-- `idiv` gives the quotient, or traps where there is none -/
theorem exec_idiv {env : Surroundings} {back : Option Word} {c : Cpu} {v w : Int} (hv : isWord v) (hw : isWord w)
    (hax : c.regs .rax = word v) (hdx : c.regs .rdx = if (word v).msb then -1 else 0) (hcx : c.regs .rcx = word w) :
    Instr.exec env back c (.idiv .rcx) = match quotient v w with
      | .ok n => .next (((c.set .rax (word n)).set .rdx (word (v.tmod w))).flagged none)
      | .error _ => .trap := by
  have hquotient : quotient v w = if w = 0 ∨ v.tdiv w < -2 ^ 63 ∨ 2 ^ 63 ≤ v.tdiv w then
      .error (if w = 0 then .divisionByZero else .overflow) else .ok (v.tdiv w) := by
    by_cases hzero : w = 0
    · rw [quotient, if_pos hzero, if_pos (.inl hzero), if_pos hzero]
    by_cases hover : v = leastWord ∧ w = -1
    · obtain ⟨rfl, rfl⟩ := hover
      decide
    · have hok : quotient v w = .ok (v.tdiv w) := by rw [quotient, if_neg hzero, if_neg hover]
      have hword := isWord_quotient hv hok
      rw [isWord_iff, leastWord, greatestWord] at hword
      rw [hok, if_neg (by omega)]
  rw [Instr.exec, hax, hdx, hcx, toInt_dividend, toInt_word hv, toInt_word hw, hquotient]
  split <;> rfl

end ThreeMachines.Native
