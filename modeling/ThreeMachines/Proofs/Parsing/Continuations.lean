/-
What a phrase starts with, and what may follow it.

The first section takes the first token off a word of `phrases P * K`. The second says of a language `K` that it may
come after a phrase (`Continues K`): should a word of `K` start with `else`, an operator or an opening parenthesis,
which a reader would take as part of the phrase, then the rest of the word is what is missing of a longer phrase and a
word of `K`; and no word of `K` starts with `->` or `:=`. Separators, closing brackets and words between the parts of
a form may follow a phrase, and so may what the grammar puts after one: an `else`, operators, calls
(`Continues.elseBranch`, `Continues.operators`, `Continues.calls`).

The last section tells the kinds of expressions from each other by their first tokens.
-/
import ThreeMachines.Proofs.Parsing.Phrases

namespace ThreeMachines.Grammar

open Computability Parse

variable {t : Token} {w : List Token} {K K' L : Language Token}

/-! ## First tokens -/

theorem mem_name_mul (h : w ∈ phrases Name * K) : ∃ x, ∃ v ∈ K, w = .ident x :: v := by
  obtain ⟨_, ⟨_, ⟨⟩⟩, v, hv, rfl⟩ := h
  exact ⟨_, v, hv, rfl⟩

theorem mem_separated_mul {α : Type} {Item : List Token → α → Prop} (h : w ∈ phrases (SeparatedBy t Item) * K) :
    w ∈ phrases Item * ((1 + just t * phrases (SeparatedBy t Item)) * K) := by
  rw [← mul_assoc]
  exact mem_mul_of_le_left phrases_separatedBy h

theorem mem_parenthesised_mul {α : Type} {Item : List Token → α → Prop} (h : w ∈ phrases (Parenthesised Item) * K) :
    ∃ v, w = .mark .leftParen :: v ∧ (v ∈ just (.mark .rightParen) * K ∨
      v ∈ phrases (SeparatedBy (.mark .comma) Item) * (just (.mark .rightParen) * K)) := by
  have h := mem_mul_of_le_left phrases_parenthesised h
  rw [mul_assoc, mul_assoc, add_mul, one_mul] at h
  obtain ⟨v, hv, rfl⟩ := mem_just_mul.1 h
  exact ⟨v, rfl, hv⟩

theorem mem_parameters_mul (h : w ∈ phrases Parameters * K) :
    w ∈ phrases Name * K ∨ w ∈ phrases (Parenthesised Name) * K := by
  rw [← Language.mem_add, ← add_mul]
  exact mem_mul_of_le_left phrases_parameters h

theorem notMem_zero_mul : w ∉ (0 : Language Token) * K := by
  rw [zero_mul]
  exact Language.notMem_zero w

/-- an optional phrase is taken if its first token is there -/
theorem mem_of_taken (hK : ∀ v, t :: v ∉ K) (h : t :: w ∈ (1 + just t * L) * K) : w ∈ L * K := by
  obtain h | ⟨v, hv, h⟩ := mem_optional_mul.1 h
  · exact absurd h (hK w)
  · cases h
    exact hv

/-- an optional phrase is passed over if its first token is not there -/
theorem mem_of_passed (hw : ∀ v, w ≠ t :: v) (h : w ∈ (1 + just t * L) * K) : w ∈ K :=
  (mem_optional_mul.1 h).resolve_right fun ⟨v, _, hv⟩ => hw v hv

theorem just_mul_starts {t' : Token} (ht : t' ≠ t) (v : List Token) : t' :: v ∉ just t * K :=
  fun h => ht (cons_mem_just_mul_iff.1 h).1

theorem mem_primary_mul (h : w ∈ phrases Primary * K) : ∃ t v, w = t :: v ∧ v ∈ afterFirst t * K := by
  obtain ⟨u, hu, v, hv, rfl⟩ := h
  obtain ⟨t, u', rfl, hu'⟩ := mem_primary hu
  exact ⟨t, u' ++ v, rfl, Language.append_mem_mul hu' hv⟩

theorem cons_mem_primary_mul (h : t :: w ∈ phrases Primary * K) : w ∈ afterFirst t * K := by
  obtain ⟨_, _, ⟨⟩, h⟩ := mem_primary_mul h
  exact h

theorem mem_unary_mul (h : w ∈ phrases Unary * K) : (∃ v ∈ phrases Unary * K, w = .mark .minus :: v) ∨
    (∃ v ∈ phrases Unary * K, w = .keyword .notWord :: v) ∨ w ∈ phrases Primary * (callTails∗ * K) := by
  have h := mem_mul_of_le_left phrases_unary h
  rwa [add_mul, add_mul, mul_assoc, mul_assoc, mul_assoc, Language.mem_add, Language.mem_add, mem_just_mul,
    mem_just_mul, or_assoc] at h

theorem mem_level_mul {n : Nat} (h : w ∈ phrases (Level n) * K) : w ∈ phrases Unary * ((operatorTails n)∗ * K) := by
  rw [← mul_assoc]
  exact mem_mul_of_le_left phrases_level h

/-! ## What may follow a phrase -/

/-- if `w` goes on with what a reader takes as part of a phrase, then a longer phrase and a word of `K` are there -/
structure Follows (K : Language Token) (w : List Token) : Prop where
  other : ∀ v, w = .keyword .elseWord :: v → v ∈ phrases Expression * K
  operator : ∀ t op n v, w = t :: v → (t, op) ∈ operatorsAt n → v ∈ phrases (Level (n + 1)) * K
  call : ∀ v, w = .mark .leftParen :: v → w ∈ callTails * K
  arrow : ∀ v, w ≠ .mark .arrow :: v
  assign : ∀ v, w ≠ .mark .assign :: v

theorem Follows.mono (h : Follows K w) (hK : K ≤ K') : Follows K' w where
  other v hv := mem_mul_of_le_right hK (h.other v hv)
  operator t op n v hv hop := mem_mul_of_le_right hK (h.operator t op n v hv hop)
  call v hv := mem_mul_of_le_right hK (h.call v hv)
  arrow := h.arrow
  assign := h.assign

/-- no phrase goes on with this token, whatever it is -/
def separates (t : Token) : Bool :=
  (operator? t).isNone && t ∉ [.keyword .elseWord, .mark .leftParen, .mark .arrow, .mark .assign]

theorem Follows.of_separates (ht : separates t) : Follows K (t :: w) := by
  simp only [separates, Bool.and_eq_true, Option.isNone_iff_eq_none, decide_eq_true_eq, List.mem_cons, not_or] at ht
  constructor <;> grind [mem_operatorsAt]

/-- every word of `K` may follow a phrase -/
def Continues (K : Language Token) : Prop := ∀ w ∈ K, Follows K w

namespace Continues

theorem extend (hK : Continues K) (hle : K ≤ K') (h : ∀ w ∈ K', w ∈ K ∨ Follows K' w) : Continues K' :=
  fun w hw => (h w hw).elim (fun hw => (hK w hw).mono hle) id

theorem le_add_mul : K ≤ (1 + L) * K := by
  rw [add_mul, one_mul]
  exact fun w hw => .inl hw

theorem le_kstar_mul : K ≤ L∗ * K := fun _ hw => mem_kstar_mul.2 (.inl hw)

theorem separator (ht : separates t) : Continues (just t * K) := by
  intro w hw
  obtain ⟨v, -, rfl⟩ := mem_just_mul.1 hw
  exact .of_separates ht

theorem optional (hK : Continues K) (ht : separates t) : Continues ((1 + just t * L) * K) := by
  refine hK.extend le_add_mul fun w hw => (mem_optional_mul.1 hw).imp_right ?_
  rintro ⟨v, -, rfl⟩
  exact .of_separates ht

theorem elseBranch (hK : Continues K) : Continues ((1 + just (.keyword .elseWord) * phrases Expression) * K) := by
  refine hK.extend le_add_mul fun w hw => (mem_optional_mul.1 hw).imp_right ?_
  rintro ⟨v, hv, rfl⟩
  have := mem_mul_of_le_right (le_add_mul (L := just (.keyword .elseWord) * phrases Expression)) hv
  constructor <;> grind [mem_operatorsAt, operator?]

theorem mem_of_else (hK : Continues K)
    (h : .keyword .elseWord :: w ∈ (1 + just (.keyword .elseWord) * phrases Expression) * K) :
    w ∈ phrases Expression * K := by
  obtain h | ⟨v, hv, ⟨⟩⟩ := mem_optional_mul.1 h
  · exact (hK _ h).other w rfl
  · exact hv

theorem operators (hK : Continues K) (n : Nat) : Continues ((operatorTails n)∗ * K) := by
  refine hK.extend le_kstar_mul fun w hw => (mem_kstar_mul.1 hw).imp_right fun h => ?_
  obtain ⟨t, op, m, hm, hop, h⟩ := mem_operatorTails_mul.1 h
  obtain ⟨v, hv, rfl⟩ := mem_just_mul.1 h
  have ht := mem_operatorsAt.1 hop
  constructor <;> grind [mem_operatorsAt, operator?]

theorem calls (hK : Continues K) : Continues (callTails∗ * K) := by
  refine hK.extend le_kstar_mul fun w hw => (mem_kstar_mul.1 hw).imp_right fun h => ?_
  have h' := mem_mul_of_le_left phrases_parenthesised h
  rw [mul_assoc] at h'
  obtain ⟨v, -, rfl⟩ := mem_just_mul.1 h'
  constructor <;> grind [mem_operatorsAt, operator?]

end Continues

/-! ## First tokens of expressions -/

theorem phrases_form_le : phrases Form ≤ phrases Unary := fun _ ⟨_, h⟩ => ⟨_, .operand (.primary (.form h))⟩

/-- an expression is a function literal, an assignment, or an operand with what follows it -/
theorem mem_expression_mul (h : w ∈ phrases Expression * K) :
    (∃ x, ∃ v ∈ phrases Expression * K, w = .ident x :: .mark .arrow :: v) ∨
      w ∈ phrases (Parenthesised Name) * (just (.mark .arrow) * (phrases Expression * K)) ∨
      (∃ x, ∃ v ∈ phrases Expression * K, w = .ident x :: .mark .assign :: v) ∨
      w ∈ phrases Unary * ((operatorTails 1)∗ * K) := by
  have h := mem_mul_of_le_left phrases_expression h
  simp only [add_mul, mul_assoc, Language.mem_add, or_assoc] at h
  rcases h with h | h | h | h
  · rcases mem_parameters_mul h with h | h
    · obtain ⟨x, _, h', rfl⟩ := mem_name_mul h
      obtain ⟨v, hv, rfl⟩ := mem_just_mul.1 h'
      exact .inl ⟨x, v, hv, rfl⟩
    · exact .inr (.inl h)
  · obtain ⟨x, _, h', rfl⟩ := mem_name_mul h
    obtain ⟨v, hv, rfl⟩ := mem_just_mul.1 h'
    exact .inr (.inr (.inl ⟨x, v, hv, rfl⟩))
  · -- a form is an operand, and it takes the operators after it as its own
    exact .inr (.inr (.inr (mem_mul_of_le_left phrases_form_le (mem_mul_of_le_right Continues.le_kstar_mul h))))
  · exact .inr (.inr (.inr (mem_level_mul h)))

theorem ident_mem_unary_mul {x : String} (h : .ident x :: w ∈ phrases Unary * K) : w ∈ callTails∗ * K := by
  obtain ⟨_, _, ⟨⟩⟩ | ⟨_, _, ⟨⟩⟩ | h := mem_unary_mul h
  exact one_mul (callTails∗ * K) ▸ cons_mem_primary_mul h

theorem keyword_mem_unary_mul {k : Keyword} {f : Parse.Form} (hf : form? k = some f)
    (h : .keyword k :: w ∈ phrases Unary * K) : w ∈ afterKeyword f * (callTails∗ * K) := by
  rw [← afterFirst_form hf]
  obtain ⟨_, _, ⟨⟩⟩ | ⟨_, _, ⟨⟩⟩ | h := mem_unary_mul h
  · cases hf
  · exact cons_mem_primary_mul h

theorem leftParen_mem_unary_mul (h : .mark .leftParen :: w ∈ phrases Unary * K) :
    w ∈ phrases Sequence * (just (.mark .rightParen) * (callTails∗ * K)) := by
  obtain ⟨_, _, ⟨⟩⟩ | ⟨_, _, ⟨⟩⟩ | h := mem_unary_mul h
  rw [← mul_assoc]
  exact cons_mem_primary_mul h

section
variable {x : String}

/-- after a name and an arrow stands the body of a lambda -/
theorem mem_of_arrow (hK : Continues K) (h : .ident x :: .mark .arrow :: w ∈ phrases Expression * K) :
    w ∈ phrases Expression * K := by
  obtain ⟨_, _, hv, ⟨⟩⟩ | h | ⟨_, _, _, ⟨⟩⟩ | h := mem_expression_mul h
  · exact hv
  · obtain ⟨_, ⟨⟩, _⟩ := mem_parenthesised_mul h
  · exact absurd rfl (((hK.operators 1).calls _ (ident_mem_unary_mul h)).arrow w)

/-- after a name and `:=` stands the assigned value -/
theorem mem_of_assign (hK : Continues K) (h : .ident x :: .mark .assign :: w ∈ phrases Expression * K) :
    w ∈ phrases Expression * K := by
  obtain ⟨_, _, _, ⟨⟩⟩ | h | ⟨_, _, hv, ⟨⟩⟩ | h := mem_expression_mul h
  · obtain ⟨_, ⟨⟩, _⟩ := mem_parenthesised_mul h
  · exact hv
  · exact absurd rfl (((hK.operators 1).calls _ (ident_mem_unary_mul h)).assign w)

end

/-- what starts neither a lambda nor an assignment is an operand with operators -/
theorem mem_of_other (harrow : ∀ x v, w ≠ .ident x :: .mark .arrow :: v)
    (hassign : ∀ x v, w ≠ .ident x :: .mark .assign :: v) (hparen : ∀ v, w ≠ .mark .leftParen :: v)
    (h : w ∈ phrases Expression * K) : w ∈ phrases Unary * ((operatorTails 1)∗ * K) := by
  obtain ⟨_, _, _, rfl⟩ | h | ⟨_, _, _, rfl⟩ | h := mem_expression_mul h
  · exact absurd rfl (harrow _ _)
  · obtain ⟨v, rfl, -⟩ := mem_parenthesised_mul h
    exact absurd rfl (hparen v)
  · exact absurd rfl (hassign _ _)
  · exact h

theorem rightParen_notMem : .mark .rightParen :: w ∉ phrases Expression * K := by
  intro h
  obtain ⟨_, _, ⟨⟩⟩ | ⟨_, _, ⟨⟩⟩ | h := mem_unary_mul (mem_of_other (by simp) (by simp) (by simp) h)
  exact notMem_zero_mul (cons_mem_primary_mul h)

/-- what may follow an operand: a call, an operator or the word that comes next -/
theorem cons_mem_tails {n : Nat} (h : t :: w ∈ callTails∗ * ((operatorTails n)∗ * K)) :
    t = .mark .leftParen ∨ (operator? t).isSome ∨ t :: w ∈ K := by
  obtain h | h := mem_kstar_mul.1 h
  · obtain h | h := mem_kstar_mul.1 h
    · exact .inr (.inr h)
    · obtain ⟨t', op, m, hm, hop, h⟩ := mem_operatorTails_mul.1 h
      obtain ⟨rfl, -⟩ := cons_mem_just_mul_iff.1 h
      exact .inr (.inl (mem_operatorsAt.1 hop ▸ rfl))
  · obtain ⟨_, ⟨⟩, _⟩ := mem_parenthesised_mul h
    exact .inl rfl

/-- what may follow a name that starts a sequence in parentheses -/
theorem ident_mem_sequence_mul {x : String}
    (h : .ident x :: t :: w ∈ phrases Sequence * (just (.mark .rightParen) * K)) :
    t ∈ [.mark .arrow, .mark .assign, .mark .leftParen, .mark .semicolon] ∨ (operator? t).isSome ∨
      t = .mark .rightParen ∧ w ∈ K := by
  obtain ⟨_, _, _, ⟨⟩⟩ | h | ⟨_, _, _, ⟨⟩⟩ | h := mem_expression_mul (mem_separated_mul h)
  · simp
  · obtain ⟨_, ⟨⟩, _⟩ := mem_parenthesised_mul h
  · simp
  · obtain h | h | h := cons_mem_tails (ident_mem_unary_mul h)
    · simp [h]
    · exact .inr (.inl h)
    · obtain h | ⟨v, hv, ⟨⟩⟩ := mem_optional_mul.1 h
      · exact .inr (.inr (cons_mem_just_mul_iff.1 h))
      · simp

/-- the tokens that start an operand without calls -/
theorem primary_starts (h : t :: w ∈ phrases Primary * K) : (∃ value, t = .number value) ∨ (∃ x, t = .ident x) ∨
    t ∈ [.keyword .trueWord, .keyword .falseWord, .mark .leftParen, .mark .leftBrace] ∨
      ∃ k, t = .keyword k ∧ (form? k).isSome := by
  have h := cons_mem_primary_mul h
  cases t with
  | number | ident => simp
  | keyword k =>
    cases k with
    | inWord | thenWord | elseWord | andWord | orWord | notWord => exact absurd h notMem_zero_mul
    | _ => simp [form?]
  | mark m =>
    cases m with
    | leftParen | leftBrace => simp
    | _ => exact absurd h notMem_zero_mul
  | eof => exact absurd h notMem_zero_mul

end ThreeMachines.Grammar
