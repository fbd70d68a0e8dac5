/-
What the readers of the parser take is derived by the grammar.

A reader that succeeds has taken the tokens of a phrase off the front, and its value is what they spell (`Reads`). The
readers of operators and calls get the operand before them as an argument, so their statements carry the phrase that
was taken before. An operand also ends where no call and no strong operator follows (`Ends`): this is why operands of
equal strength are grouped from the left.

- `items_yields`: the sequence that `items` returns is derived from the tokens it took.
- `binary_yields`: operators of a strength above `floor` with their operands are a level of the grammar.
-/
import ThreeMachines.Proofs.Parsing.Grammar
import ThreeMachines.Proofs.Parsing.Readers

namespace ThreeMachines.Parse

open Grammar

/-- no call follows, and no operator stronger than `floor` -/
def Ends (floor : Nat) (left : List Token) : Prop :=
  ∀ t w, left = t :: w → t ≠ .mark .leftParen ∧ ∀ op n, (t, op) ∈ operatorsAt n → n ≤ floor

/-- a phrase that `P` derives was read off the front of `ts` -/
def Reads {α : Type} (P : List Token → α → Prop) (ts : List Located) (a : α) (left : List Token) : Prop :=
  ∃ u, tokens ts = u ++ left ∧ P u a

theorem Reads.mono {α : Type} {P P' : List Token → α → Prop} {ts : List Located} {a : α} {left : List Token}
    (hP : ∀ {u a}, P u a → P' u a) (h : Reads P ts a left) : Reads P' ts a left :=
  h.imp fun _ => And.imp_right hP

theorem expect_yields (t : Token) (ts : List Located) : Yields (expect t ts) fun _ left => tokens ts = t :: left := by
  unfold expect
  split
  · exact .error _
  · split
    · rename_i h
      exact .pure (by rw [tokens_cons, h])
    · exact .error _

theorem identifier_yields (ts : List Located) : Yields (identifier ts) (Reads Name ts) := by
  unfold identifier
  split
  · exact .pure ⟨_, rfl, .ident _⟩
  · exact .error _

theorem identifiers_yields (ts : List Located) : Yields (identifiers ts) (Reads Names ts) := by
  unfold identifiers
  refine .bind (identifier_yields ts) fun name rest h hread => ?_
  obtain ⟨u, hu, hname⟩ := hread
  dsimp only
  split
  · rename_i more _
    refine .bind (identifiers_yields more) fun names left h' hmore => ?_
    obtain ⟨v, hv, hnames⟩ := hmore
    refine .pure ⟨_, ?_, .more hname hnames⟩
    rw [hu, tokens_cons, hv, List.append_assoc, List.cons_append]
  · exact .pure ⟨u, hu, .one hname⟩
termination_by ts.length
decreasing_by grind

theorem parameters_yields (ts : List Located) : Yields (parameters ts) (Reads (Parenthesised Name) ts) := by
  unfold parameters
  refine .bind (expect_yields _ ts) fun _ rest h ht => ?_
  dsimp only
  split
  · exact .pure ⟨_, ht, .none⟩
  · refine .bind (identifiers_yields _) fun names rest₁ _ ⟨u, hu, hnames⟩ => ?_
    refine .bind (expect_yields _ rest₁) fun _ left _ hleft => .pure ⟨_, ?_, .some hnames⟩
    simp [ht, hu, hleft]

theorem functionParameters_yields (ts : List Located) : Yields (functionParameters ts) (Reads Parameters ts) := by
  unfold functionParameters
  split
  · exact (parameters_yields _).mono fun _ _ => .mono .list
  · refine .bind (identifier_yields ts) fun name left _ hread => ?_
    obtain ⟨u, hu, h⟩ := hread
    exact .pure ⟨u, hu, .single h⟩

theorem procedureLocals_yields (ts : List Located) : Yields (procedureLocals ts) (Reads Locals ts) := by
  unfold procedureLocals
  split
  · rename_i rest
    refine .bind (identifiers_yields rest) fun names left _ ⟨u, hu, h⟩ => .pure ⟨_, ?_, .some h⟩
    rw [tokens_cons, hu, List.cons_append]
  · exact .pure ⟨[], rfl, .none⟩

/-! ## Phrases -/

mutual

theorem items_yields (ts : List Located) : Yields (items ts) (Reads Sequence ts) := by
  unfold items
  refine .bind (expression_yields ts) fun item rest h ⟨⟨u, hu, hitem⟩, _⟩ => ?_
  dsimp only
  split
  · rename_i more _ _ _
    refine .bind (items_yields more) fun later left h' ⟨v, hv, hlater⟩ => .pure ⟨_, ?_, .more hitem hlater⟩
    rw [hu, tokens_cons, hv, List.append_assoc, List.cons_append]
  · exact .pure ⟨u, hu, .one hitem⟩
termination_by 8 * ts.length + 6
decreasing_by all_goals (subst_vars; simp only [List.length_cons] at *; omega)

theorem expressions_yields (ts : List Located) :
    Yields (expressions ts) (Reads (SeparatedBy (.mark .comma) Expression) ts) := by
  unfold expressions
  refine .bind (expression_yields ts) fun item rest h ⟨⟨u, hu, hitem⟩, _⟩ => ?_
  dsimp only
  split
  · rename_i more _ _ _
    refine .bind (expressions_yields more) fun later left h' ⟨v, hv, hlater⟩ => .pure ⟨_, ?_, .more hitem hlater⟩
    rw [hu, tokens_cons, hv, List.append_assoc, List.cons_append]
  · exact .pure ⟨u, hu, .one hitem⟩
termination_by 8 * ts.length + 6
decreasing_by all_goals (subst_vars; simp only [List.length_cons] at *; omega)

theorem bindings_yields (ts : List Located) : Yields (bindings ts) (Reads Bindings ts) := by
  unfold bindings
  refine .bind (identifier_yields ts) fun name rest₁ h₁ ⟨u, hu, hname⟩ => ?_
  refine .bind (expect_yields _ rest₁) fun _ rest₂ h₂ hassign => ?_
  refine .bind (expression_yields rest₂) fun value rest₃ h₃ ⟨⟨v, hv, hvalue⟩, _⟩ => ?_
  have hts : tokens ts = u ++ .mark .assign :: v ++ tokens rest₃ := by simp [hu, hassign, hv]
  dsimp only
  split
  · rename_i more _ _ _
    refine .bind (bindings_yields more) fun later left h₄ ⟨w, hw, hlater⟩ =>
      .pure ⟨_, ?_, .more (.assign hname hvalue) hlater⟩
    rw [hts, tokens_cons, hw]
    simp
  · exact .pure ⟨_, hts, .one (.assign hname hvalue)⟩
termination_by 8 * ts.length + 6
decreasing_by all_goals (subst_vars; simp only [List.length_cons] at *; omega)

theorem arguments_yields (ts : List Located) : Yields (arguments ts) fun args left =>
    ∃ u, .mark .leftParen :: tokens ts = u ++ left ∧ Parenthesised Expression u args := by
  unfold arguments
  split
  · exact .pure ⟨_, rfl, .none⟩
  · refine .bind (expressions_yields ts) fun args rest h₁ ⟨u, hu, hargs⟩ => ?_
    exact .bind (expect_yields _ rest) fun _ left h₂ hclose => .pure ⟨_, by simp [hu, hclose], .some hargs⟩
termination_by 8 * ts.length + 7
decreasing_by all_goals (subst_vars; omega)

theorem expression_yields (ts : List Located) :
    Yields (expression ts) fun e left => Reads Expression ts e left ∧ Ends 0 left := by
  unfold expression
  split
  · split
    · rename_i word span rest _ f hf
      exact .bind (form_yields hf span rest) fun e left h ⟨⟨u, hu, he⟩, hends⟩ => .pure ⟨⟨u, hu, .form he⟩, hends⟩
    · exact (binary_yields (Nat.zero_le 6) _).mono fun _ _ => And.imp_left (.mono .operation)
  · rename_i name _ _ rest
    refine .bind (expression_yields rest) fun body left h ⟨⟨u, hu, hbody⟩, hends⟩ => ?_
    exact .pure ⟨⟨_, by simp [hu], .lambda (.single (.ident name)) hbody⟩, hends⟩
  · rename_i name _ _ rest
    refine .bind (expression_yields rest) fun body left h ⟨⟨u, hu, hbody⟩, hends⟩ => ?_
    exact .pure ⟨⟨_, by simp [hu], .assign (.ident name) hbody⟩, hends⟩
  · rename_i span rest
    split
    · refine .bind (parameters_yields _) fun params rest₁ h₁ ⟨u, hu, hparams⟩ => ?_
      refine .bind (expect_yields _ rest₁) fun _ rest₂ h₂ harrow => ?_
      refine .bind (expression_yields rest₂) fun body left h₃ ⟨⟨v, hv, hbody⟩, hends⟩ => ?_
      exact .pure ⟨⟨_, by simp [hu, harrow, hv], .lambda (.list hparams) hbody⟩, hends⟩
    · exact (binary_yields (Nat.zero_le 6) _).mono fun _ _ => And.imp_left (.mono .operation)
  · exact (binary_yields (Nat.zero_le 6) _).mono fun _ _ => And.imp_left (.mono .operation)
termination_by 8 * ts.length + 5
decreasing_by all_goals (subst_vars; simp only [List.length_cons] at *; omega)

theorem form_yields {f : Form} {word : Keyword} (hf : form? word = some f) (span : Span) (ts : List Located) :
    Yields (form f ts) fun e left => Reads Grammar.Form (⟨.keyword word, span⟩ :: ts) e left ∧ Ends 0 left := by
  cases word <;> cases hf <;> unfold form
  case localWord =>
    refine .bind (bindings_yields ts) fun bound rest₁ h₁ ⟨u, hu, hbound⟩ => ?_
    refine .bind (expect_yields _ rest₁) fun _ rest₂ h₂ hin => ?_
    refine .bind (expression_yields rest₂) fun body left h₃ ⟨⟨v, hv, hbody⟩, hends⟩ => ?_
    exact .pure ⟨⟨_, by simp [hu, hin, hv], .block hbound hbody⟩, hends⟩
  case ifWord =>
    refine .bind (expression_yields ts) fun cond rest₁ h₁ ⟨⟨u, hu, hcond⟩, _⟩ => ?_
    refine .bind (expect_yields _ rest₁) fun _ rest₂ h₂ hthen => ?_
    refine .bind (expression_yields rest₂) fun thenBranch rest₃ h₃ ⟨⟨v, hv, hbranch⟩, hends⟩ => ?_
    dsimp only
    split
    · rename_i more _ _
      refine .bind (expression_yields more) fun elseBranch left h₄ ⟨⟨w, hw, helse⟩, hends⟩ => ?_
      exact .pure ⟨⟨_, by simp [hu, hthen, hv, hw], .ifThenElse hcond hbranch helse⟩, hends⟩
    · exact .pure ⟨⟨_, by simp [hu, hthen, hv], .ifThen hcond hbranch⟩, hends⟩
  case whileWord | doWord | loopWord =>
    -- the three loops are two expressions with a keyword between them
    refine .bind (expression_yields ts) fun _ rest₁ h₁ ⟨⟨u, hu, hfirst⟩, _⟩ => ?_
    refine .bind (expect_yields _ rest₁) fun _ rest₂ h₂ hword => ?_
    refine .bind (expression_yields rest₂) fun _ left h₃ ⟨⟨v, hv, hsecond⟩, hends⟩ => ?_
    refine .pure ⟨⟨_, ?_, show Grammar.Form (_ :: u ++ _ :: v) _ by constructor <;> assumption⟩, hends⟩
    simp [hu, hword, hv]
  case funWord =>
    refine .bind (identifier_yields ts) fun name rest₁ h₁ ⟨u, hu, hname⟩ => ?_
    refine .bind (functionParameters_yields rest₁) fun params rest₂ h₂ ⟨v, hv, hparams⟩ => ?_
    refine .bind (expect_yields _ rest₂) fun _ rest₃ h₃ harrow => ?_
    refine .bind (expression_yields rest₃) fun body left h₄ ⟨⟨w, hw, hbody⟩, hends⟩ => ?_
    exact .pure ⟨⟨_, by simp [hu, hv, harrow, hw], .function hname hparams hbody⟩, hends⟩
  case procWord =>
    refine .bind (parameters_yields ts) fun params rest₁ h₁ ⟨u, hu, hparams⟩ => ?_
    refine .bindContinued (procedureLocals_yields rest₁) fun locals rest₂ h₂ ⟨v, hv, hlocals⟩ => ?_
    refine .bind (expect_yields _ rest₂) fun _ rest₃ h₃ harrow => ?_
    refine .bind (expression_yields rest₃) fun body left h₄ ⟨⟨w, hw, hbody⟩, hends⟩ => ?_
    exact .pure ⟨⟨_, by simp [hu, hv, harrow, hw], .procedure hparams hlocals hbody⟩, hends⟩
termination_by 8 * ts.length + 7
decreasing_by all_goals (subst_vars; simp only [List.length_cons] at *; omega)

theorem binary_yields {floor : Nat} (hfloor : floor ≤ 6) (ts : List Located) :
    Yields (binary floor ts) fun e left => Reads (Level (floor + 1)) ts e left ∧ Ends floor left := by
  unfold binary
  refine .bind (unary_yields ts) fun lhs rest h₁ ⟨⟨u, hu, hlhs⟩, hends⟩ => ?_
  refine .bindContinued (operators_yields (.unary hlhs) (by omega) hends) fun e left h₂ ⟨⟨v, hv, he⟩, hends⟩ => ?_
  exact .pure ⟨⟨_, by rw [hu, hv, List.append_assoc], he⟩, hends⟩
termination_by 8 * ts.length + 4
decreasing_by all_goals omega

theorem operators_yields {floor m : Nat} {u : List Token} {lhs : Expr} {ts : List Located}
    (hlhs : Level m u lhs) (hm : floor < m) (hends : Ends m (tokens ts)) : Yields (operators floor lhs ts) fun e left =>
      (∃ v, tokens ts = v ++ left ∧ Level (floor + 1) (u ++ v) e) ∧ Ends floor left := by
  unfold operators
  have hstop : Level (floor + 1) (u ++ []) lhs := by simpa using hlhs.weaken hm
  split
  · exact .pure ⟨⟨[], rfl, hstop⟩, nofun⟩
  · rename_i t rest
    have ht := hends _ _ rfl
    split
    · rename_i op strength hop
      have hstrength : strength ≤ m := ht.2 op strength (mem_operatorsAt.2 hop)
      split
      · rename_i hfloor
        have hoperator := mem_operatorsAt.2 hop
        refine .bind (binary_yields (strength_le hoperator) rest) fun rhs rest₁ h₁ ⟨⟨v, hv, hrhs⟩, hends⟩ => ?_
        -- the operand so far is no weaker than the operator, so the two and the right operand are one operand
        have hlhs := (hlhs.weaken hstrength).binary hoperator hrhs
        refine .bindContinued (operators_yields hlhs hfloor hends) fun e left h₂ ⟨⟨w, hw, he⟩, hends⟩ => ?_
        exact .pure ⟨⟨t.token :: v ++ w, by simp [hv, hw], by simpa using he⟩, hends⟩
      · rename_i hfloor
        refine .pure ⟨⟨[], rfl, hstop⟩, ?_⟩
        rintro _ _ ⟨⟩
        refine ⟨ht.1, fun op n h => ?_⟩
        grind [mem_operatorsAt]
    · rename_i hop
      refine .pure ⟨⟨[], rfl, hstop⟩, ?_⟩
      rintro _ _ ⟨⟩
      refine ⟨ht.1, fun op n h => ?_⟩
      grind [mem_operatorsAt]
termination_by 8 * ts.length
decreasing_by all_goals (subst_vars; simp only [List.length_cons] at *; omega)

theorem unary_yields (ts : List Located) :
    Yields (unary ts) fun e left => Reads Unary ts e left ∧ Ends 7 left := by
  unfold unary
  split
  · rename_i rest
    exact .bind (unary_yields rest) fun e left h ⟨⟨u, hu, he⟩, hends⟩ => .pure ⟨⟨_, by simp [hu], .neg he⟩, hends⟩
  · rename_i rest
    exact .bind (unary_yields rest) fun e left h ⟨⟨u, hu, he⟩, hends⟩ => .pure ⟨⟨_, by simp [hu], .not he⟩, hends⟩
  · refine .bind (primary_yields ts) fun head rest h₁ ⟨u, hu, hhead⟩ => ?_
    refine .bindContinued (calls_yields (.primary hhead) rest) fun e left h₂ ⟨⟨v, hv, he⟩, hends⟩ => ?_
    exact .pure ⟨⟨_, by rw [hu, hv, List.append_assoc], .operand he⟩, hends⟩
termination_by 8 * ts.length + 3
decreasing_by all_goals (subst_vars; simp only [List.length_cons] at *; omega)

theorem calls_yields {u : List Token} {callee : Expr} (hcallee : Operand u callee) (ts : List Located) :
    Yields (calls callee ts) fun e left => (∃ v, tokens ts = v ++ left ∧ Operand (u ++ v) e) ∧ Ends 7 left := by
  unfold calls
  split
  · rename_i rest
    refine .bind (arguments_yields rest) fun args rest₁ h₁ ⟨v, hv, hargs⟩ => ?_
    refine .bindContinued (calls_yields (hcallee.call hargs) rest₁) fun e left h₂ ⟨⟨w, hw, he⟩, hends⟩ => ?_
    exact .pure ⟨⟨v ++ w, by rw [tokens_cons, hv, hw, List.append_assoc], by simpa using he⟩, hends⟩
  · rename_i hts
    refine .pure ⟨⟨[], rfl, by simpa using hcallee⟩, fun t w h => ?_⟩
    obtain ⟨span, rest, rfl, rfl⟩ := tokens_eq_cons h
    exact ⟨by rintro rfl; exact hts _ _ rfl, fun op n hop => (strength_le hop).trans (by decide)⟩
termination_by 8 * ts.length
decreasing_by all_goals (subst_vars; simp only [List.length_cons] at *; omega)

theorem primary_yields (ts : List Located) : Yields (primary ts) (Reads Primary ts) := by
  unfold primary
  split
  · exact .pure ⟨_, rfl, .number _⟩
  · exact .pure ⟨_, rfl, .true⟩
  · exact .pure ⟨_, rfl, .false⟩
  · exact .pure ⟨_, rfl, .name (.ident _)⟩
  · rename_i rest
    refine .bind (items_yields rest) fun inner rest₁ h₁ ⟨u, hu, hinner⟩ => ?_
    exact .bind (expect_yields _ rest₁) fun _ left h₂ hclose => .pure ⟨_, by simp [hu, hclose], .paren hinner⟩
  · rename_i rest
    refine .bind (items_yields rest) fun inner rest₁ h₁ ⟨u, hu, hinner⟩ => ?_
    exact .bind (expect_yields _ rest₁) fun _ left h₂ hclose => .pure ⟨_, by simp [hu, hclose], .brace hinner⟩
  · split
    · rename_i word span rest _ _ _ f hf
      exact .bind (form_yields hf span rest) fun e left h ⟨⟨u, hu, he⟩, _⟩ => .pure ⟨u, hu, .form he⟩
    · exact .error _
  · exact .error _
termination_by 8 * ts.length + 2
decreasing_by all_goals (subst_vars; simp only [List.length_cons] at *; omega)

end

end ThreeMachines.Parse
