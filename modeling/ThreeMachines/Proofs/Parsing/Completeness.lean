/-
Whatever the grammar derives is read.

The grammar says where a phrase may end, and a reader decides where it does: it takes an `else`, an operator or a call
whenever there is one. So the tokens that the grammar meant to leave need not be the ones that are left. What holds is
this: where the tokens are a phrase and then a word of a language `K`, the reader succeeds and leaves a word of `K`,
provided that every word of `K` may follow a phrase (`Continues`). Whatever is taken too much was the start of a
longer phrase, and a word of `K` comes after that one too.

- `items_gives`: so it is for a sequence.
- `lambdaAhead_eq_true`, `lambdaAhead_eq_false`: looking for `) ->` tells the parameters of a lambda from an operand.
-/
import ThreeMachines.Proofs.Parsing.Continuations
import ThreeMachines.Proofs.Parsing.Soundness

namespace ThreeMachines.Parse

open Grammar Computability

variable {t : Token} {w : List Token} {K L : Language Token}

/-! ## Names -/

theorem expect_gives {ts : List Located} (h : tokens ts ∈ just t * K) : Gives (expect t ts) fun _ left => left ∈ K := by
  obtain ⟨v, hv, hts⟩ := mem_just_mul.1 h
  obtain ⟨span, rest, rfl, rfl⟩ := tokens_eq_cons hts
  unfold expect
  exact ⟨_, if_pos rfl, hv⟩

theorem identifier_gives {ts : List Located} (h : tokens ts ∈ phrases Name * K) :
    Gives (identifier ts) fun _ left => left ∈ K := by
  obtain ⟨x, v, hv, hts⟩ := mem_name_mul h
  obtain ⟨span, rest, rfl, rfl⟩ := tokens_eq_cons hts
  exact .pure hv

theorem identifiers_gives (hK : ∀ v, .mark .comma :: v ∉ K) {ts : List Located} (h : tokens ts ∈ phrases Names * K) :
    Gives (identifiers ts) fun _ left => left ∈ K := by
  unfold identifiers
  refine .bind (identifier_gives (mem_separated_mul h)) fun x rest hrest hleft => ?_
  dsimp only
  split
  · exact .bind (identifiers_gives hK (mem_of_taken hK hleft)) fun _ _ _ hleft => .pure hleft
  · rename_i hcomma
    refine .pure (mem_of_passed (fun v hv => ?_) hleft)
    obtain ⟨span, more, rfl, rfl⟩ := tokens_eq_cons hv
    exact hcomma span more hrest rfl .rfl
termination_by ts.length
decreasing_by grind

theorem parameters_gives {ts : List Located} (h : tokens ts ∈ phrases (Parenthesised Name) * K) :
    Gives (parameters ts) fun _ left => left ∈ K := by
  obtain ⟨v, hts, hv⟩ := mem_parenthesised_mul h
  unfold parameters
  refine .bind (expect_gives (K := {v}) (mem_just_mul.2 ⟨v, rfl, hts⟩)) fun _ rest hrest hv' => ?_
  obtain rfl : tokens rest = v := hv'
  dsimp only
  split
  · refine .pure (hv.elim (fun hv => (cons_mem_just_mul_iff.1 hv).2) fun hv => ?_)
    obtain ⟨_, _, _, h⟩ := mem_name_mul (mem_separated_mul hv)
    cases h
  · rename_i hclose
    have hv := hv.resolve_left fun hv => by
      obtain ⟨_, _, h⟩ := mem_just_mul.1 hv
      obtain ⟨span, left, rfl, rfl⟩ := tokens_eq_cons h
      exact hclose span left hrest rfl .rfl
    refine .bind (identifiers_gives (fun _ h => ?_) hv) fun names rest₁ _ hrest₁ => ?_
    · cases (cons_mem_just_mul_iff.1 h).1
    · exact .bind (expect_gives hrest₁) fun _ _ _ hleft => .pure hleft

theorem functionParameters_gives {ts : List Located} (h : tokens ts ∈ phrases Parameters * K) :
    Gives (functionParameters ts) fun _ left => left ∈ K := by
  have h := mem_mul_of_le_left phrases_parameters h
  rw [add_mul, Language.mem_add] at h
  unfold functionParameters
  split
  · refine parameters_gives (h.resolve_left fun h => ?_)
    obtain ⟨_, _, _, h⟩ := mem_name_mul h
    cases h
  · rename_i hparen
    refine .bind (identifier_gives (h.resolve_right fun h => ?_)) fun _ _ _ hleft => .pure hleft
    obtain ⟨_, hts, -⟩ := mem_parenthesised_mul h
    obtain ⟨span, rest, rfl, rfl⟩ := tokens_eq_cons hts
    exact hparen span rest rfl

theorem procedureLocals_gives (hcomma : ∀ v, .mark .comma :: v ∉ K) (hlocal : ∀ v, .keyword .localWord :: v ∉ K)
    {ts : List Located} (h : tokens ts ∈ phrases Locals * K) :
    Gives (procedureLocals ts) fun _ left => left ∈ K := by
  have h := mem_mul_of_le_left phrases_locals h
  unfold procedureLocals
  split
  · exact .bind (identifiers_gives hcomma (mem_of_taken hlocal h)) fun _ _ _ hleft => .pure hleft
  · rename_i hts
    refine .pure (mem_of_passed (fun v hv => ?_) h)
    obtain ⟨span, more, rfl, rfl⟩ := tokens_eq_cons hv
    exact hts span more rfl

/-! ## Lambdas and brackets -/

/-- no opened sequence is taken for the parameters of a lambda -/
theorem lambdaAhead_eq_false (hK : ∀ v, .mark .arrow :: v ∉ K) {ts : List Located}
    (h : tokens ts ∈ phrases Sequence * (just (.mark .rightParen) * K)) : lambdaAhead ts = false := by
  unfold lambdaAhead
  split
  · exact absurd (mem_separated_mul h) rightParen_notMem
  · unfold namesThenArrow
    split
    · simpa [operator?] using ident_mem_sequence_mul h
    · simpa [operator?, hK] using ident_mem_sequence_mul h
    · rfl

theorem namesThenArrow_eq_true {ts : List Located}
    (h : tokens ts ∈ phrases Names * (just (.mark .rightParen) * (just (.mark .arrow) * K))) :
    namesThenArrow ts = true := by
  obtain ⟨x, v, hv, hts⟩ := mem_name_mul (mem_separated_mul h)
  obtain ⟨span, rest, rfl, rfl⟩ := tokens_eq_cons hts
  obtain hv | ⟨v, hv, hrest⟩ := mem_optional_mul.1 hv
  · obtain ⟨v, hv, hrest⟩ := mem_just_mul.1 hv
    obtain ⟨_, rest, rfl, rfl⟩ := tokens_eq_cons hrest
    obtain ⟨v, hv, hrest⟩ := mem_just_mul.1 hv
    obtain ⟨_, rest, rfl, rfl⟩ := tokens_eq_cons hrest
    rfl
  · obtain ⟨_, rest, rfl, rfl⟩ := tokens_eq_cons hrest
    rw [namesThenArrow]
    exact namesThenArrow_eq_true hv
termination_by ts.length

/-- the parameters of a lambda are seen as such -/
theorem lambdaAhead_eq_true {ts : List Located} {v : List Token} (hv : tokens ts = v)
   (h : v ∈ just (.mark .rightParen) * (just (.mark .arrow) * K) ∨
     v ∈ phrases Names * (just (.mark .rightParen) * (just (.mark .arrow) * K))) : lambdaAhead ts = true := by
  subst hv
  rcases h with h | h
  · obtain ⟨v, hv, hrest⟩ := mem_just_mul.1 h
    obtain ⟨_, rest, rfl, rfl⟩ := tokens_eq_cons hrest
    obtain ⟨v, hv, hrest⟩ := mem_just_mul.1 hv
    obtain ⟨_, rest, rfl, rfl⟩ := tokens_eq_cons hrest
    rfl
  · unfold lambdaAhead
    split
    · rfl
    · exact namesThenArrow_eq_true h

/-! ## Phrases -/

/-- where neither a call nor an operator starts, the operand has ended -/
theorem mem_of_ends (hw : Ends 0 w) (h : w ∈ callTails∗ * ((operatorTails 1)∗ * K)) : w ∈ K := by
  obtain h | h := mem_kstar_mul.1 h
  · refine (mem_kstar_mul.1 h).resolve_right fun h => ?_
    obtain ⟨t, op, m, hm, hop, h⟩ := mem_operatorTails_mul.1 h
    obtain ⟨v, -, rfl⟩ := mem_just_mul.1 h
    exact absurd ((hw t v rfl).2 op m hop) (by omega)
  · obtain ⟨v, rfl, -⟩ := mem_parenthesised_mul h
    exact absurd rfl (hw _ v rfl).1

section
variable {span : Span} {ts : List Located}

/-- where the parameters of a lambda are seen, there are some -/
theorem mem_of_lambdaAhead (hK : Continues K) (h : tokens (⟨.mark .leftParen, span⟩ :: ts) ∈ phrases Expression * K)
    (hahead : lambdaAhead ts = true) : tokens (⟨.mark .leftParen, span⟩ :: ts) ∈
      phrases (Parenthesised Name) * (just (.mark .arrow) * (phrases Expression * K)) := by
  obtain ⟨_, _, _, ⟨⟩⟩ | h | ⟨_, _, _, ⟨⟩⟩ | h := mem_expression_mul h
  · exact h
  · have h := leftParen_mem_unary_mul h
    rw [lambdaAhead_eq_false (fun v hv => ((hK.operators 1).calls _ hv).arrow v rfl) h] at hahead
    cases hahead

/-- where no parameters of a lambda are seen, the parenthesis is an operand -/
theorem mem_of_not_lambdaAhead (h : tokens (⟨.mark .leftParen, span⟩ :: ts) ∈ phrases Expression * K)
    (hahead : ¬ lambdaAhead ts = true) : tokens (⟨.mark .leftParen, span⟩ :: ts) ∈
      phrases Unary * ((operatorTails 1)∗ * K) := by
  obtain ⟨_, _, _, ⟨⟩⟩ | h | ⟨_, _, _, ⟨⟩⟩ | h := mem_expression_mul h
  · obtain ⟨v, hv, h⟩ := mem_parenthesised_mul h
    exact absurd (lambdaAhead_eq_true (List.cons.inj hv).2 h) hahead
  · exact h

end

-- The induction is along the calls of the readers. A part is read before the rest of its phrase and then `K`, so each
-- case first shows that this longer language may follow a phrase as well.
mutual

theorem items_gives {K : Language Token} (hK : Continues K) (hsep : ∀ v, .mark .semicolon :: v ∉ K) {ts : List Located}
    (h : tokens ts ∈ phrases Sequence * K) : Gives (items ts) fun _ left => left ∈ K := by
  unfold items
  refine .bind (expression_gives (hK.optional (by rfl)) (mem_separated_mul h)) fun item rest hrest hleft => ?_
  dsimp only
  split
  · exact .bind (items_gives hK hsep (mem_of_taken hsep hleft)) fun _ _ _ hleft => .pure hleft
  · rename_i hsemicolon
    refine .pure (mem_of_passed (fun v hv => ?_) hleft)
    obtain ⟨span, more, rfl, rfl⟩ := tokens_eq_cons hv
    exact hsemicolon span more hrest rfl .rfl
termination_by 8 * ts.length + 6
decreasing_by all_goals (subst_vars; simp only [List.length_cons] at *; omega)

theorem expressions_gives {K : Language Token} (hK : Continues K) (hsep : ∀ v, .mark .comma :: v ∉ K)
    {ts : List Located} (h : tokens ts ∈ phrases (SeparatedBy (.mark .comma) Expression) * K) :
    Gives (expressions ts) fun _ left => left ∈ K := by
  unfold expressions
  refine .bind (expression_gives (hK.optional (by rfl)) (mem_separated_mul h)) fun item rest hrest hleft => ?_
  dsimp only
  split
  · exact .bind (expressions_gives hK hsep (mem_of_taken hsep hleft)) fun _ _ _ hleft => .pure hleft
  · rename_i hcomma
    refine .pure (mem_of_passed (fun v hv => ?_) hleft)
    obtain ⟨span, more, rfl, rfl⟩ := tokens_eq_cons hv
    exact hcomma span more hrest rfl .rfl
termination_by 8 * ts.length + 6
decreasing_by all_goals (subst_vars; simp only [List.length_cons] at *; omega)

theorem bindings_gives {K : Language Token} (hK : Continues K) (hsep : ∀ v, .mark .comma :: v ∉ K) {ts : List Located}
    (h : tokens ts ∈ phrases Bindings * K) : Gives (bindings ts) fun _ left => left ∈ K := by
  have h := mem_mul_of_le_left phrases_binding (mem_separated_mul h)
  rw [mul_assoc, mul_assoc] at h
  unfold bindings
  refine .bind (identifier_gives h) fun name rest₁ _ h₁ => ?_
  refine .bind (expect_gives h₁) fun _ rest₂ _ h₂ => ?_
  refine .bind (expression_gives (hK.optional (by rfl)) h₂) fun value rest₃ hrest hleft => ?_
  dsimp only
  split
  · exact .bind (bindings_gives hK hsep (mem_of_taken hsep hleft)) fun _ _ _ hleft => .pure hleft
  · rename_i hcomma
    refine .pure (mem_of_passed (fun v hv => ?_) hleft)
    obtain ⟨span, more, rfl, rfl⟩ := tokens_eq_cons hv
    exact hcomma span more hrest rfl .rfl
termination_by 8 * ts.length + 6
decreasing_by all_goals (subst_vars; simp only [List.length_cons] at *; omega)

theorem arguments_gives {K : Language Token} {ts : List Located} (h : .mark .leftParen :: tokens ts ∈ callTails * K) :
    Gives (arguments ts) fun _ left => left ∈ K := by
  obtain ⟨v, ⟨⟩, h⟩ := mem_parenthesised_mul h
  unfold arguments
  split
  · refine .pure (h.elim (fun h => (cons_mem_just_mul_iff.1 h).2) fun h => ?_)
    exact absurd (mem_separated_mul h) rightParen_notMem
  · rename_i hclose
    have h := h.resolve_left fun h => by
      obtain ⟨_, _, h⟩ := mem_just_mul.1 h
      obtain ⟨span, left, rfl, rfl⟩ := tokens_eq_cons h
      exact hclose span left rfl
    refine .bind (expressions_gives (.separator (by rfl)) (just_mul_starts (by simp)) h) fun args rest₁ _ h₁ => ?_
    exact .bind (expect_gives h₁) fun _ _ _ hleft => .pure hleft
termination_by 8 * ts.length + 7
decreasing_by all_goals (subst_vars; omega)

theorem expression_gives {K : Language Token} (hK : Continues K) {ts : List Located}
    (h : tokens ts ∈ phrases Expression * K) : Gives (expression ts) fun _ left => left ∈ K := by
  unfold expression
  split
  · have h := mem_of_other (by simp) (by simp) (by simp) h
    split
    · -- a form takes what follows it up to the end, also what the grammar could leave to an operand
      rename_i f hf
      have hrest := keyword_mem_unary_mul hf h
      have hform := (form_gives (hK.operators 1).calls f hrest).and (form_yields hf default _)
      exact .bind hform fun _ _ _ hleft => .pure (mem_of_ends hleft.2.2 hleft.1)
    · exact binary_gives hK h
  · have h := mem_of_arrow hK h
    exact .bind (expression_gives hK h) fun _ _ _ hleft => .pure hleft
  · have h := mem_of_assign hK h
    exact .bind (expression_gives hK h) fun _ _ _ hleft => .pure hleft
  · split
    · rename_i hahead
      refine .bind (parameters_gives (mem_of_lambdaAhead hK h hahead)) fun params rest₁ _ h₁ => ?_
      refine .bind (expect_gives h₁) fun _ rest₂ _ h₂ => ?_
      exact .bind (expression_gives hK h₂) fun _ _ _ hleft => .pure hleft
    · rename_i hahead
      exact binary_gives hK (mem_of_not_lambdaAhead h hahead)
  · rename_i harrow hassign hparen
    refine binary_gives hK (mem_of_other (fun x v hv => ?_) (fun x v hv => ?_) (fun v hv => ?_) h)
    · obtain ⟨_, _, rfl, hrest⟩ := tokens_eq_cons hv
      obtain ⟨_, _, rfl, rfl⟩ := tokens_eq_cons hrest
      exact harrow _ _ _ _ rfl
    · obtain ⟨_, _, rfl, hrest⟩ := tokens_eq_cons hv
      obtain ⟨_, _, rfl, rfl⟩ := tokens_eq_cons hrest
      exact hassign _ _ _ _ rfl
    · obtain ⟨_, _, rfl, rfl⟩ := tokens_eq_cons hv
      exact hparen _ _ rfl
termination_by 8 * ts.length + 5
decreasing_by all_goals (subst_vars; simp only [List.length_cons] at *; omega)

theorem form_gives {K : Language Token} (hK : Continues K) (f : Form) {ts : List Located}
    (h : tokens ts ∈ afterKeyword f * K) : Gives (form f ts) fun _ left => left ∈ K := by
  unfold form
  cases f <;> simp only [afterKeyword, mul_assoc] at h
  case block =>
    refine .bind (bindings_gives (.separator (by rfl)) (just_mul_starts (by simp)) h) fun bound rest₁ _ h₁ => ?_
    refine .bind (expect_gives h₁) fun _ rest₂ _ h₂ => ?_
    exact .bind (expression_gives hK h₂) fun _ _ _ hleft => .pure hleft
  case ite =>
    refine .bind (expression_gives (.separator (by rfl)) h) fun cond rest₁ _ h₁ => ?_
    refine .bind (expect_gives h₁) fun _ rest₂ _ h₂ => ?_
    refine .bind (expression_gives hK.elseBranch h₂) fun thenBranch rest₃ hrest h₃ => ?_
    dsimp only
    split
    · -- an `else` is taken, also one that the grammar left to an `if` further out
      exact .bind (expression_gives hK (hK.mem_of_else h₃)) fun _ _ _ hleft => .pure hleft
    · rename_i helse
      refine .pure (mem_of_passed (fun v hv => ?_) h₃)
      obtain ⟨span, more, rfl, rfl⟩ := tokens_eq_cons hv
      exact helse span more hrest rfl .rfl
  case whileDo | doWhile | loop =>
    refine .bind (expression_gives (.separator (by rfl)) h) fun _ rest₁ _ h₁ => ?_
    refine .bind (expect_gives h₁) fun _ rest₂ _ h₂ => ?_
    exact .bind (expression_gives hK h₂) fun _ _ _ hleft => .pure hleft
  case function =>
    refine .bind (identifier_gives h) fun name rest₁ _ h₁ => ?_
    refine .bind (functionParameters_gives h₁) fun params rest₂ _ h₂ => ?_
    refine .bind (expect_gives h₂) fun _ rest₃ _ h₃ => ?_
    exact .bind (expression_gives hK h₃) fun _ _ _ hleft => .pure hleft
  case procedure =>
    refine .bind (parameters_gives h) fun params rest₁ _ h₁ => ?_
    have hlocals := procedureLocals_gives (just_mul_starts (by simp)) (just_mul_starts (by simp)) h₁
    refine .bindContinued hlocals fun locals rest₂ _ h₂ => ?_
    refine .bind (expect_gives h₂) fun _ rest₃ _ h₃ => ?_
    exact .bind (expression_gives hK h₃) fun _ _ _ hleft => .pure hleft
termination_by 8 * ts.length + 7
decreasing_by all_goals (subst_vars; simp only [List.length_cons] at *; omega)

theorem binary_gives {K : Language Token} (hK : Continues K) {floor : Nat} {ts : List Located}
    (h : tokens ts ∈ phrases Unary * ((operatorTails (floor + 1))∗ * K)) :
    Gives (binary floor ts) fun _ left => left ∈ K := by
  unfold binary
  refine .bind (unary_gives (hK.operators _) h) fun lhs rest _ h₁ => ?_
  exact .bindContinued (operators_gives hK h₁) fun _ _ _ hleft => .pure hleft
termination_by 8 * ts.length + 4
decreasing_by all_goals omega

theorem operators_gives {K : Language Token} (hK : Continues K) {floor : Nat} {lhs : Expr} {ts : List Located}
    (h : tokens ts ∈ (operatorTails (floor + 1))∗ * K) : Gives (operators floor lhs ts) fun _ left => left ∈ K := by
  have hstop (hts : ∀ t w op n, tokens ts = t :: w → floor < n → (t, op) ∉ operatorsAt n) : tokens ts ∈ K := by
    refine (mem_kstar_mul.1 h).resolve_right fun h => ?_
    obtain ⟨t, op, n, hn, hop, h⟩ := mem_operatorTails_mul.1 h
    obtain ⟨v, -, hv⟩ := mem_just_mul.1 h
    exact hts t v op n hv hn hop
  unfold operators
  split
  · exact .pure (hstop nofun)
  · rename_i t rest
    split
    · rename_i op strength hop
      split
      · have hrest := (hK.operators (floor + 1) _ h).operator _ op strength _ rfl (mem_operatorsAt.2 hop)
        refine .bind (binary_gives (hK.operators _) (mem_level_mul hrest)) fun rhs rest₁ _ h₁ => ?_
        exact .bindContinued (operators_gives hK h₁) fun _ _ _ hleft => .pure hleft
      · refine .pure (hstop ?_)
        rintro _ _ op' n ⟨⟩ hn h
        grind [mem_operatorsAt]
    · refine .pure (hstop ?_)
      rintro _ _ op' n ⟨⟩ hn h
      grind [mem_operatorsAt]
termination_by 8 * ts.length
decreasing_by all_goals (subst_vars; simp only [List.length_cons] at *; omega)

theorem unary_gives {K : Language Token} (hK : Continues K) {ts : List Located} (h : tokens ts ∈ phrases Unary * K) :
    Gives (unary ts) fun _ left => left ∈ K := by
  unfold unary
  split
  · obtain ⟨_, h, ⟨⟩⟩ | ⟨_, _, ⟨⟩⟩ | h := mem_unary_mul h
    · exact .bind (unary_gives hK h) fun _ _ _ hleft => .pure hleft
    · exact absurd (cons_mem_primary_mul h) notMem_zero_mul
  · obtain ⟨_, _, ⟨⟩⟩ | ⟨_, h, ⟨⟩⟩ | h := mem_unary_mul h
    · exact .bind (unary_gives hK h) fun _ _ _ hleft => .pure hleft
    · exact absurd (cons_mem_primary_mul h) notMem_zero_mul
  · rename_i hminus hnot
    have h : tokens ts ∈ phrases Primary * (callTails∗ * K) := by
      obtain ⟨v, _, h⟩ | ⟨v, _, h⟩ | h := mem_unary_mul h
      · obtain ⟨span, rest, rfl, rfl⟩ := tokens_eq_cons h
        exact absurd rfl (hminus span rest)
      · obtain ⟨span, rest, rfl, rfl⟩ := tokens_eq_cons h
        exact absurd rfl (hnot span rest)
      · exact h
    refine .bind (primary_gives hK.calls h) fun head rest _ h₁ => ?_
    exact .bindContinued (calls_gives hK h₁) fun _ _ _ hleft => .pure hleft
termination_by 8 * ts.length + 3
decreasing_by all_goals (subst_vars; simp only [List.length_cons] at *; omega)

theorem calls_gives {K : Language Token} (hK : Continues K) {callee : Expr} {ts : List Located}
    (h : tokens ts ∈ callTails∗ * K) : Gives (calls callee ts) fun _ left => left ∈ K := by
  unfold calls
  split
  · have h := (hK.calls _ h).call _ rfl
    refine .bind (arguments_gives h) fun args rest₁ _ h₁ => ?_
    exact .bindContinued (calls_gives hK h₁) fun _ _ _ hleft => .pure hleft
  · rename_i hparen
    refine .pure ((mem_kstar_mul.1 h).resolve_right fun h => ?_)
    obtain ⟨v, hv, -⟩ := mem_parenthesised_mul h
    obtain ⟨span, rest, rfl, rfl⟩ := tokens_eq_cons hv
    exact hparen span rest rfl
termination_by 8 * ts.length
decreasing_by all_goals (subst_vars; simp only [List.length_cons] at *; omega)

theorem primary_gives {K : Language Token} (hK : Continues K) {ts : List Located}
    (h : tokens ts ∈ phrases Primary * K) : Gives (primary ts) fun _ left => left ∈ K := by
  unfold primary
  split
  · exact .pure (one_mul K ▸ cons_mem_primary_mul h)
  · exact .pure (one_mul K ▸ cons_mem_primary_mul h)
  · exact .pure (one_mul K ▸ cons_mem_primary_mul h)
  · exact .pure (one_mul K ▸ cons_mem_primary_mul h)
  · have h := mul_assoc (phrases Sequence) _ K ▸ cons_mem_primary_mul h
    refine .bind (items_gives (.separator (by rfl)) (just_mul_starts (by simp)) h) fun inner rest₁ _ h₁ => ?_
    exact .bind (expect_gives h₁) fun _ _ _ hleft => .pure hleft
  · have h := mul_assoc (phrases Sequence) _ K ▸ cons_mem_primary_mul h
    refine .bind (items_gives (.separator (by rfl)) (just_mul_starts (by simp)) h) fun inner rest₁ _ h₁ => ?_
    exact .bind (expect_gives h₁) fun _ _ _ hleft => .pure hleft
  · split
    · rename_i f hf
      exact .bind (form_gives hK f (afterFirst_form hf ▸ cons_mem_primary_mul h)) fun _ _ _ hleft => .pure hleft
    · rename_i htrue hfalse _ hf
      exact absurd (primary_starts h) (by simp [hf]; exact ⟨htrue, hfalse⟩)
  · rename_i hnumber htrue hfalse hident hparen hbrace hkeyword
    obtain ⟨t, v, hts, -⟩ := mem_primary_mul h
    obtain ⟨span, rest, rfl, rfl⟩ := tokens_eq_cons hts
    obtain ⟨value, rfl⟩ | ⟨x, rfl⟩ | ht | ⟨k, rfl, -⟩ := primary_starts h
    · exact absurd rfl (hnumber value span rest)
    · exact absurd rfl (hident x span rest)
    · simp only [List.mem_cons, List.not_mem_nil, or_false] at ht
      rcases ht with rfl | rfl | rfl | rfl
      · exact absurd rfl (htrue span rest)
      · exact absurd rfl (hfalse span rest)
      · exact absurd rfl (hparen span rest)
      · exact absurd rfl (hbrace span rest)
    · exact absurd rfl (hkeyword k span rest)
termination_by 8 * ts.length + 2
decreasing_by all_goals (subst_vars; simp only [List.length_cons] at *; omega)

end

end ThreeMachines.Parse
