/-
The phrases of the grammar as languages.

`phrases P` are the token lists that `P` derives, whatever they spell. In the semiring of languages a production is an
inequality, `phrases Binding ≤ phrases Name * (just (.mark .assign) * phrases Expression)`, and "a phrase and then a
word of `K`" is membership in `phrases P * K`, so taking a token off the front is a step in a product. Recursion on
the left is gone: an operand is one without calls and then calls (`Operand.split`), a level is an operand and then
operators with their right operands (`Level.split`).
-/
import Mathlib.Computability.Language
import Mathlib.Order.CompletePartialOrder
import ThreeMachines.Proofs.Parsing.Grammar

namespace ThreeMachines.Grammar

open Computability Parse

/-! ## Languages -/

/-- the token lists that `P` derives -/
def phrases {α : Type} (P : List Token → α → Prop) : Language Token := {u | ∃ a, P u a}

/-- the one token `t` -/
def just (t : Token) : Language Token := {[t]}

variable {α β : Type} {t : Token} {u v w : List Token} {K L M : Language Token}

theorem mem_phrases {P : List Token → α → Prop} {a : α} (h : P w a) : w ∈ phrases P := ⟨a, h⟩

theorem singleton_mem_just : [t] ∈ just t := rfl

theorem cons_mem_just_mul (h : w ∈ K) : t :: w ∈ just t * K := Language.append_mem_mul singleton_mem_just h

theorem mem_just_mul : w ∈ just t * K ↔ ∃ v ∈ K, w = t :: v := by
  constructor
  · rintro ⟨_, rfl, v, hv, rfl⟩
    exact ⟨v, hv, rfl⟩
  · rintro ⟨v, hv, rfl⟩
    exact cons_mem_just_mul hv

@[simp] theorem cons_mem_just_mul_iff {t' : Token} : t' :: w ∈ just t * K ↔ t' = t ∧ w ∈ K := by
  rw [mem_just_mul]
  grind

theorem mem_mul_of_le_left (h : L ≤ M) (hu : u ∈ L * K) : u ∈ M * K := mul_le_mul_left h K hu

theorem mem_mul_of_le_right (h : L ≤ M) (hu : u ∈ K * L) : u ∈ K * M := mul_le_mul_right h K hu

theorem nil_mem_optional : [] ∈ 1 + L := .inl rfl

theorem mem_mul_of_nil_mem (hu : u ∈ L) (hm : [] ∈ M) : u ∈ L * M := u.append_nil ▸ Language.append_mem_mul hu hm

/-- two phrases with the token `t` between them -/
theorem mem_between {P : List Token → α → Prop} {Q : List Token → β → Prop} {a : α} {b : β} (hu : P u a) (hv : Q v b) :
    u ++ t :: v ∈ phrases P * (just t * phrases Q) :=
  Language.append_mem_mul (mem_phrases hu) (cons_mem_just_mul (mem_phrases hv))

/-- an optional phrase that starts with the token `t`, then `K` -/
theorem mem_optional_mul : w ∈ (1 + just t * L) * K ↔ w ∈ K ∨ ∃ v ∈ L * K, w = t :: v := by
  rw [add_mul, one_mul, mul_assoc, Language.mem_add, mem_just_mul]

theorem mem_kstar_mul : w ∈ L∗ * K ↔ w ∈ K ∨ w ∈ L * (L∗ * K) := by
  rw [← mul_assoc, ← Language.mem_add, ← one_mul K, ← mul_assoc (L * _), ← add_mul, mul_one,
    Language.one_add_self_mul_kstar_eq_kstar, one_mul]

/-! ## What each phrase is made of -/

/-- the arguments of a call, with their parentheses -/
abbrev callTails : Language Token := phrases (Parenthesised Expression)

/-- operators of at least the given strength, each with its right operand -/
def operatorTails (n : Nat) : Language Token :=
  {u | ∃ t op m, n ≤ m ∧ (t, op) ∈ operatorsAt m ∧ u ∈ just t * phrases (Level (m + 1))}

/-- what follows the keyword of a form -/
def afterKeyword : Parse.Form → Language Token
  | .block => phrases Bindings * (just (.keyword .inWord) * phrases Expression)
  | .ite => phrases Expression * (just (.keyword .thenWord) *
      (phrases Expression * (1 + just (.keyword .elseWord) * phrases Expression)))
  | .whileDo | .loop => phrases Expression * (just (.keyword .doWord) * phrases Expression)
  | .doWhile => phrases Expression * (just (.keyword .whileWord) * phrases Expression)
  | .function => phrases Name * (phrases Parameters * (just (.mark .arrow) * phrases Expression))
  | .procedure => phrases (Parenthesised Name) * (phrases Locals * (just (.mark .arrow) * phrases Expression))

/-- what follows the first token of an operand without calls -/
def afterFirst : Token → Language Token
  | .number _ | .ident _ | .keyword .trueWord | .keyword .falseWord => 1
  | .mark .leftParen => phrases Sequence * just (.mark .rightParen)
  | .mark .leftBrace => phrases Sequence * just (.mark .rightBrace)
  | .keyword word => (form? word).elim 0 afterKeyword
  | _ => 0

theorem afterFirst_form {k : Keyword} {f : Parse.Form} (h : form? k = some f) :
    afterFirst (.keyword k) = afterKeyword f := by
  cases k <;> cases h <;> rfl

section
variable {Item : List Token → α → Prop}

theorem phrases_separatedBy : phrases (SeparatedBy t Item) ≤
    phrases Item * (1 + just t * phrases (SeparatedBy t Item)) := by
  rintro u ⟨_, h⟩
  cases h with
  | one item => exact mem_mul_of_nil_mem (mem_phrases item) nil_mem_optional
  | more item later => exact Language.append_mem_mul (mem_phrases item) (.inr (cons_mem_just_mul (mem_phrases later)))

theorem phrases_parenthesised : phrases (Parenthesised Item) ≤
    just (.mark .leftParen) * ((1 + phrases (SeparatedBy (.mark .comma) Item)) * just (.mark .rightParen)) := by
  rintro u ⟨_, h⟩
  cases h with
  | none => exact cons_mem_just_mul (Language.append_mem_mul nil_mem_optional singleton_mem_just)
  | some items => exact cons_mem_just_mul (Language.append_mem_mul (.inr (mem_phrases items)) singleton_mem_just)

end

theorem phrases_parameters : phrases Parameters ≤ phrases Name + phrases (Parenthesised Name) := by
  rintro u ⟨_, h⟩
  cases h with
  | single h => exact .inl (mem_phrases h)
  | list h => exact .inr (mem_phrases h)

theorem phrases_locals : phrases Locals ≤ 1 + just (.keyword .localWord) * phrases Names := by
  rintro u ⟨_, h⟩
  cases h with
  | none => exact nil_mem_optional
  | some h => exact .inr (cons_mem_just_mul (mem_phrases h))

theorem phrases_expression : phrases Expression ≤ phrases Parameters * (just (.mark .arrow) * phrases Expression) +
    phrases Name * (just (.mark .assign) * phrases Expression) + phrases Form + phrases (Level 1) := by
  rintro u ⟨_, h⟩
  cases h with
  | lambda head h => exact .inl (.inl (.inl (mem_between head h)))
  | assign head h => exact .inl (.inl (.inr (mem_between head h)))
  | form h => exact .inl (.inr (mem_phrases h))
  | operation h => exact .inr (mem_phrases h)

theorem phrases_binding : phrases Binding ≤ phrases Name * (just (.mark .assign) * phrases Expression) := by
  rintro u ⟨_, h⟩
  cases h with
  | assign head h => exact mem_between head h

theorem mem_form (h : u ∈ phrases Form) : ∃ k f v, u = .keyword k :: v ∧ form? k = some f ∧ v ∈ afterKeyword f := by
  obtain ⟨_, h⟩ := h
  cases h with
  | block bindings h => exact ⟨_, .block, _, rfl, rfl, mem_between bindings h⟩
  | ifThen h₁ h₂ =>
    exact ⟨_, .ite, _, rfl, rfl, Language.append_mem_mul (mem_phrases h₁)
      (cons_mem_just_mul (mem_mul_of_nil_mem (mem_phrases h₂) nil_mem_optional))⟩
  | ifThenElse h₁ h₂ h₃ =>
    refine ⟨_, .ite, _, by rw [List.append_assoc]; rfl, rfl, ?_⟩
    exact Language.append_mem_mul (mem_phrases h₁) (cons_mem_just_mul
      (Language.append_mem_mul (mem_phrases h₂) (.inr (cons_mem_just_mul (mem_phrases h₃)))))
  | whileDo h₁ h₂ => exact ⟨_, .whileDo, _, rfl, rfl, mem_between h₁ h₂⟩
  | doWhile h₁ h₂ => exact ⟨_, .doWhile, _, rfl, rfl, mem_between h₁ h₂⟩
  | loop h₁ h₂ => exact ⟨_, .loop, _, rfl, rfl, mem_between h₁ h₂⟩
  | function head parameters h =>
    exact ⟨_, .function, _, by rw [List.append_assoc]; rfl, rfl,
      Language.append_mem_mul (mem_phrases head) (mem_between parameters h)⟩
  | procedure parameters names h =>
    exact ⟨_, .procedure, _, by rw [List.append_assoc]; rfl, rfl,
      Language.append_mem_mul (mem_phrases parameters) (mem_between names h)⟩

/-- an operand without calls, by its first token -/
theorem mem_primary (h : u ∈ phrases Primary) : ∃ t v, u = t :: v ∧ v ∈ afterFirst t := by
  obtain ⟨_, h⟩ := h
  cases h with
  | name h =>
    cases h with
    | ident name => exact ⟨_, _, rfl, Language.nil_mem_one⟩
  | paren h | brace h => exact ⟨_, _, rfl, Language.append_mem_mul (mem_phrases h) singleton_mem_just⟩
  | form h =>
    obtain ⟨k, f, v, rfl, hf, hv⟩ := mem_form (mem_phrases h)
    exact ⟨_, _, rfl, afterFirst_form hf ▸ hv⟩
  | _ => exact ⟨_, _, rfl, Language.nil_mem_one⟩

/-- an operand is one without calls and the calls that follow it -/
theorem Operand.split {u : List Token} {e : Expr} : Operand u e → u ∈ phrases Primary * callTails∗
  | .primary h => mem_mul_of_nil_mem (mem_phrases h) (Language.nil_mem_kstar _)
  | .call h arguments => by
    have hcalls := Language.append_mem_mul h.split (mem_phrases arguments)
    rw [mul_assoc] at hcalls
    exact mem_mul_of_le_right kstar_mul_le_kstar hcalls

theorem phrases_unary : phrases Unary ≤ just (.mark .minus) * phrases Unary +
    just (.keyword .notWord) * phrases Unary + phrases Primary * callTails∗ := by
  rintro u ⟨_, h⟩
  cases h with
  | neg h => exact .inl (.inl (cons_mem_just_mul (mem_phrases h)))
  | not h => exact .inl (.inr (cons_mem_just_mul (mem_phrases h)))
  | operand h => exact .inr h.split

theorem operatorTails_anti {m n : Nat} (h : m ≤ n) : operatorTails n ≤ operatorTails m := by
  rintro u ⟨t, op, k, hk, hop, hu⟩
  exact ⟨t, op, k, h.trans hk, hop, hu⟩

theorem mem_operatorTails_mul {n : Nat} : w ∈ operatorTails n * K ↔
    ∃ t op m, n ≤ m ∧ (t, op) ∈ operatorsAt m ∧ w ∈ just t * (phrases (Level (m + 1)) * K) := by
  constructor
  · rintro ⟨u, ⟨t, op, m, hm, hop, hu⟩, v, hv, rfl⟩
    exact ⟨t, op, m, hm, hop, mul_assoc (just t) _ K ▸ Language.append_mem_mul hu hv⟩
  · rintro ⟨t, op, m, hm, hop, hw⟩
    obtain ⟨u, hu, v, hv, rfl⟩ := Language.mem_mul.1 (mul_assoc (just t) _ K ▸ hw)
    exact Language.append_mem_mul ⟨t, op, m, hm, hop, hu⟩ hv

/-- a level is one operand and a run of operators with their right operands -/
theorem Level.split {n : Nat} {u : List Token} {e : Expr} : Level n u e → u ∈ phrases Unary * (operatorTails n)∗
  | .unary h => mem_mul_of_nil_mem (mem_phrases h) (Language.nil_mem_kstar _)
  | .weaker h => mem_mul_of_le_right (kstar_mono (operatorTails_anti (Nat.le_succ n))) h.split
  | .binary left operator right => by
    have htail := Language.append_mem_mul left.split
      (show _ ∈ operatorTails n from ⟨_, _, n, le_rfl, operator, cons_mem_just_mul (mem_phrases right)⟩)
    rw [mul_assoc] at htail
    exact mem_mul_of_le_right kstar_mul_le_kstar htail

theorem phrases_level {n : Nat} : phrases (Level n) ≤ phrases Unary * (operatorTails n)∗ := fun _ ⟨_, h⟩ => h.split

end ThreeMachines.Grammar
