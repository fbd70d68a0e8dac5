/-
Texts whose parts can be told.

A mark ends what stands before it, if that does not contain the mark; so it does with what stands behind the last one.
Numbers are written in digits, and a minus in front of them tells the sign.

- `cut_inj`, `cut_last_inj`: the parts before and behind the first mark, and the last one, can be told.
- `toDigits_inj`, `repr_inj`: so can numbers.
-/
import Mathlib.Tactic

namespace ThreeMachines

/-! ## Marks -/

section
variable {α : Type} {mark : α} {xs ys ps qs : List α}

/-- what stands before a mark can be told, if it does not contain the mark -/
theorem cut_inj (hxs : mark ∉ xs) (hys : mark ∉ ys) (h : xs ++ mark :: ps = ys ++ mark :: qs) : xs = ys ∧ ps = qs := by
  rcases List.append_eq_append_iff.1 h with ⟨between, rfl, hrest⟩ | ⟨between, rfl, hrest⟩
  · cases between with
    | nil => simpa using hrest
    | cons c between =>
      obtain rfl : mark = c := (List.cons.inj hrest).1
      exact absurd (List.mem_append_right _ List.mem_cons_self) hys
  · cases between with
    | nil => simpa [eq_comm] using hrest
    | cons c between =>
      obtain rfl : mark = c := (List.cons.inj hrest).1
      exact absurd (List.mem_append_right _ List.mem_cons_self) hxs

/-- what stands behind a mark can be told, if it does not contain the mark -/
theorem cut_last_inj (hps : mark ∉ ps) (hqs : mark ∉ qs) (h : xs ++ mark :: ps = ys ++ mark :: qs) :
    xs = ys ∧ ps = qs := by
  have hreverse : ps.reverse ++ mark :: xs.reverse = qs.reverse ++ mark :: ys.reverse := by
    simpa using congrArg List.reverse h
  obtain ⟨hbehind, hbefore⟩ := cut_inj (by simpa using hps) (by simpa using hqs) hreverse
  exact ⟨List.reverse_injective hbefore, List.reverse_injective hbehind⟩

end

/-! ## Numbers -/

theorem isDigit_of_mem_toDigits {n : Nat} {c : Char} (h : c ∈ Nat.toDigits 10 n) : c.isDigit = true :=
  Nat.isDigit_of_mem_toDigits (by decide) (by decide) h

/-- different numbers have different digits -/
theorem toDigits_inj {n n' : Nat} (h : Nat.toDigits 10 n = Nat.toDigits 10 n') : n = n' :=
  calc
    n = Nat.ofDigitChars 10 (Nat.toDigits 10 n) 0 := Nat.ofDigitChars_ten_toDigits.symm
    _ = Nat.ofDigitChars 10 (Nat.toDigits 10 n') 0 := by rw [h]
    _ = n' := Nat.ofDigitChars_ten_toDigits

/-- a number is made of digits, behind a minus if it is negative -/
theorem toList_repr (value : Int) :
    value.repr.toList = (if value < 0 then ['-'] else []) ++ Nat.toDigits 10 value.natAbs := by
  cases value with
  | ofNat n =>
    have hnonneg : ¬ (Int.ofNat n < 0) := by simp
    rw [if_neg hnonneg]
    exact Nat.toList_repr
  | negSucc n =>
    have htext : (Int.negSucc n).repr = "-" ++ (n + 1).repr := rfl
    rw [if_pos (Int.negSucc_lt_zero n), htext, String.toList_append, Nat.toList_repr]
    rfl

theorem mem_repr {value : Int} {c : Char} (h : c ∈ value.repr.toList) : (c.isDigit || c = '-') = true := by
  rw [toList_repr] at h
  rcases List.mem_append.1 h with h | h
  · split at h
    · rw [List.mem_singleton.1 h]
      rfl
    · cases h
  · rw [isDigit_of_mem_toDigits h]
    rfl

/-- different numbers are written differently -/
@[simp] theorem repr_inj {value value' : Int} : value.repr = value'.repr ↔ value = value' := by
  refine ⟨fun h => ?_, congrArg Int.repr⟩
  have hlist := congrArg String.toList h
  rw [toList_repr, toList_repr] at hlist
  have hminus (n n' : Nat) : '-' :: Nat.toDigits 10 n ≠ Nat.toDigits 10 n' := by
    intro heq
    have hmem : '-' ∈ Nat.toDigits 10 n' := heq ▸ List.mem_cons_self
    exact absurd (isDigit_of_mem_toDigits hmem) (by decide)
  have hneg {a b : Int} (hab : (if a < 0 then ['-'] else []) ++ Nat.toDigits 10 a.natAbs =
      (if b < 0 then ['-'] else []) ++ Nat.toDigits 10 b.natAbs) (ha : a < 0) : b < 0 := by
    by_contra hb
    rw [if_pos ha, if_neg hb] at hab
    exact hminus _ _ hab
  have hsign : value < 0 ↔ value' < 0 := ⟨hneg hlist, hneg hlist.symm⟩
  simp only [hsign, List.append_right_inj] at hlist
  have habs := toDigits_inj hlist
  omega

end ThreeMachines
