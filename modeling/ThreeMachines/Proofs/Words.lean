/-
Words stay words.

Every operator gives a word for words (`isWord_unary`, `isWord_binary`), and a loop's counter is a word that `dec` counts
down: `countdown` is the number of passes it makes, as many as a word says (`countdown_of_isWord`).
-/
import Mathlib.Tactic
import ThreeMachines.Run.Arithmetic

namespace ThreeMachines

theorem isWord_iff {n : Int} : isWord n = true ↔ leastWord ≤ n ∧ n ≤ greatestWord := by
  simp [isWord]

theorem wrap_of_isWord {n : Int} (h : isWord n = true) : wrap n = n := by
  rw [isWord_iff, leastWord, greatestWord] at h
  exact Int.bmod_eq_of_le (by simp only [wordCount]; omega) (by simp only [wordCount]; omega)

theorem isWord_wrap (n : Int) : isWord (wrap n) = true := by
  have h1 := Int.le_bmod (x := n) (m := wordCount) (by decide)
  have h2 := Int.bmod_lt (x := n) (m := wordCount) (by decide)
  rw [isWord_iff, wrap, leastWord, greatestWord]
  simp only [wordCount] at h1 h2 ⊢
  omega

theorem isWord_toInt (value : Int64) : isWord value.toInt = true := by
  have h1 := value.le_toInt
  have h2 := value.toInt_lt
  rw [isWord_iff, leastWord, greatestWord]
  omega

theorem isWord_truth (b : Bool) : isWord (truth b) = true := by
  cases b <;> decide

/-! ## Operators -/

theorem isWord_unary (op : UnaryOp) (n : Int) : isWord (op.eval n) = true := by
  cases op with
  | neg => exact isWord_wrap _
  | not => exact isWord_truth _

theorem isWord_quotient {m n r : Int} (hm : isWord m = true) (h : quotient m n = .ok r) : isWord r = true := by
  rw [isWord_iff, leastWord, greatestWord] at hm
  rw [quotient] at h
  by_cases hn : n = 0
  · rw [if_pos hn] at h
    cases h
  · by_cases hover : m = leastWord ∧ n = -1
    · rw [if_neg hn, if_pos hover] at h
      cases h
    · rw [if_neg hn, if_neg hover, Except.ok.injEq] at h
      subst h
      rw [leastWord] at hover
      have habs : (m.tdiv n).natAbs = m.natAbs / n.natAbs := Int.natAbs_tdiv m n
      rw [isWord_iff, leastWord, greatestWord]
      -- a divisor of 1 or -1 keeps the size of the dividend, any other halves it at least
      by_cases h1 : n = 1
      · rw [h1, Int.tdiv_one]
        omega
      · by_cases h2 : n = -1
        · rw [h2, Int.tdiv_neg, Int.tdiv_one]
          omega
        · have hhalf := Nat.div_le_div_left (show 2 ≤ n.natAbs by omega) (show 0 < 2 by decide) (a := m.natAbs)
          rw [← habs] at hhalf
          omega

theorem isWord_binary {op : BinaryOp} {m n r : Int} (hm : isWord m = true) (h : op.eval m n = .ok r) :
    isWord r = true := by
  cases op with
  | add | sub | mul =>
    cases h
    exact isWord_wrap _
  | div => exact isWord_quotient hm h
  | lt | gt | le | ge | eq | ne | and | or =>
    cases h
    exact isWord_truth _

/-! ## The passes of a counted loop -/

/-- the passes that a counter makes until it is not positive -/
def countdown (n : Int) : Nat := if 0 < n then (wrap (n - 1)).toNat + 1 else 0

theorem countdown_of_isWord {n : Int} (h : isWord n = true) : countdown n = n.toNat := by
  rw [countdown]
  split
  · rename_i hn
    have hw : isWord (n - 1) = true := by
      rw [isWord_iff, leastWord, greatestWord] at h ⊢
      omega
    rw [wrap_of_isWord hw]
    omega
  · omega

/-- after a pass the counter has one pass less to go -/
theorem countdown_pos {n : Int} (h : 0 < n) : countdown n = countdown (wrap (n - 1)) + 1 := by
  rw [countdown_of_isWord (isWord_wrap _), countdown, if_pos h]

theorem countdown_of_not_pos {n : Int} (h : ¬ 0 < n) : countdown n = 0 := if_neg h

end ThreeMachines
