/-
The parser does not look at places.

Two lists of located tokens that have the same tokens are read alike (`Alike`): both readings succeed, with the same
value and the same tokens left, or both fail with the same cause. Only the place that an error reports may differ.
`Alike` has a rule for a value, for an error and for two readers in a row, so each proof follows the definition of its
reader; where a reader looks at the first token, the two lists have the same one.

- `program_alike`: so whole lists of tokens are parsed to the same expression, or refused for the same cause.
-/
import ThreeMachines.Proofs.Parsing.Readers

namespace ThreeMachines.Parse

section
variable {α β : Type} {p p' : α × List Located → Prop} {q q' : β × List Located → Prop}

/-- what a reader reads and leaves, or why it fails, without places -/
def seen (x : Except SyntaxError { r : α × List Located // p r }) : Except SyntaxError.Cause (α × List Token) :=
  match x with
  | .ok r => .ok (r.1.1, tokens r.1.2)
  | .error e => .error e.cause

/-- two readings that differ in places only -/
def Alike (x : Except SyntaxError { r : α × List Located // p r })
    (y : Except SyntaxError { r : α × List Located // p' r }) : Prop := seen x = seen y

namespace Alike

theorem pure {a : α} {left left' : List Located} {h : p (a, left)} {h' : p' (a, left')}
    (hleft : tokens left = tokens left') : Alike (Pure.pure ⟨(a, left), h⟩) (Pure.pure ⟨(a, left'), h'⟩) :=
  congrArg (fun w => Except.ok (a, w)) hleft

theorem error {e e' : SyntaxError} (h : e.cause = e'.cause) :
    Alike (.error e : Except SyntaxError { r : α × List Located // p r })
      (.error e' : Except SyntaxError { r : α × List Located // p' r }) :=
  congrArg Except.error h

/-- two readers in a row -/
theorem bind {x : Except SyntaxError { r : α × List Located // p r }}
    {y : Except SyntaxError { r : α × List Located // p' r }}
    {f : { r : α × List Located // p r } → Except SyntaxError { r : β × List Located // q r }}
    {g : { r : α × List Located // p' r } → Except SyntaxError { r : β × List Located // q' r }} (hx : Alike x y)
    (hf : ∀ a left left' (h : p (a, left)) (h' : p' (a, left')), tokens left = tokens left' →
      Alike (f ⟨(a, left), h⟩) (g ⟨(a, left'), h'⟩)) : Alike (x >>= f) (y >>= g) := by
  cases x with
  | error e =>
    cases y with
    | error e' =>
      have hcause : e.cause = e'.cause := Except.error.inj hx
      exact error hcause
    | ok b => cases hx
  | ok a =>
    cases y with
    | error e' => cases hx
    | ok b =>
      obtain ⟨⟨a, left⟩, h⟩ := a
      obtain ⟨⟨b, left'⟩, h'⟩ := b
      obtain ⟨rfl, hleft⟩ := Prod.mk.inj (Except.ok.inj hx)
      exact hf a left left' h h' hleft

end Alike
end

variable {ts us : List Located}

/-! ## Single tokens and names -/

theorem cause_unexpected (expected : Expected) (h : tokens ts = tokens us) :
    (unexpected expected ts).cause = (unexpected expected us).cause := by
  cases ts with
  | nil =>
    cases us with
    | nil => rfl
    | cons u us => cases h
  | cons t ts =>
    obtain ⟨token, span⟩ := t
    obtain ⟨span', us, rfl, -⟩ := tokens_eq_cons h.symm
    cases token <;> rfl

theorem expect_alike (token : Token) (h : tokens ts = tokens us) : Alike (expect token ts) (expect token us) := by
  cases ts with
  | nil =>
    cases us with
    | nil => rfl
    | cons u us => cases h
  | cons t ts =>
    obtain ⟨span, us, rfl, hrest⟩ := tokens_eq_cons h.symm
    unfold expect
    dsimp only
    split
    · exact .pure hrest.symm
    · exact .error (cause_unexpected _ h)

theorem identifier_alike (h : tokens ts = tokens us) : Alike (identifier ts) (identifier us) := by
  unfold identifier
  split
  · obtain ⟨span, rest, rfl, hrest⟩ := tokens_eq_cons h.symm
    exact .pure hrest.symm
  · rename_i hother
    split
    · obtain ⟨span, rest, rfl, -⟩ := tokens_eq_cons h
      exact absurd rfl (hother _ _ _)
    · exact .error (cause_unexpected _ h)

theorem identifiers_alike (ts us : List Located) (h : tokens ts = tokens us) :
    Alike (identifiers ts) (identifiers us) := by
  unfold identifiers
  refine .bind (identifier_alike h) fun name rest rest' _ _ hrest => ?_
  dsimp only
  split
  · obtain ⟨span, more', rfl, hmore⟩ := tokens_eq_cons hrest.symm
    exact .bind (identifiers_alike _ more' hmore.symm) fun names left left' _ _ hleft => .pure hleft
  · rename_i hother
    split
    · obtain ⟨span, more, rfl, -⟩ := tokens_eq_cons hrest
      exact absurd HEq.rfl (hother _ _ _ rfl)
    · exact .pure hrest
termination_by ts.length
decreasing_by grind

theorem parameters_alike (h : tokens ts = tokens us) : Alike (parameters ts) (parameters us) := by
  unfold parameters
  refine .bind (expect_alike _ h) fun _ rest rest' _ _ hrest => ?_
  dsimp only
  split
  · obtain ⟨span, left, rfl, hleft⟩ := tokens_eq_cons hrest.symm
    exact .pure hleft.symm
  · rename_i hother
    split
    · obtain ⟨span, left, rfl, -⟩ := tokens_eq_cons hrest
      exact absurd HEq.rfl (hother _ _ _ rfl)
    · refine .bind (identifiers_alike _ _ hrest) fun names rest₁ rest₁' _ _ hrest₁ => ?_
      exact .bind (expect_alike _ hrest₁) fun _ left left' _ _ hleft => .pure hleft

theorem namesThenArrow_congr (ts us : List Located) (h : tokens ts = tokens us) :
    namesThenArrow ts = namesThenArrow us := by
  fun_induction namesThenArrow ts generalizing us with
  | case1 _ _ _ rest ih =>
    obtain ⟨_, us₁, rfl, h₁⟩ := tokens_eq_cons h.symm
    obtain ⟨_, us₂, rfl, h₂⟩ := tokens_eq_cons h₁
    exact ih us₂ h₂.symm
  | case2 =>
    obtain ⟨_, us₁, rfl, h₁⟩ := tokens_eq_cons h.symm
    obtain ⟨_, us₂, rfl, h₂⟩ := tokens_eq_cons h₁
    obtain ⟨_, us₃, rfl, -⟩ := tokens_eq_cons h₂
    rfl
  | case3 ts hcomma harrow =>
    unfold namesThenArrow
    split
    · obtain ⟨_, ts₁, rfl, h₁⟩ := tokens_eq_cons h
      obtain ⟨_, ts₂, rfl, -⟩ := tokens_eq_cons h₁
      exact (hcomma _ _ _ _ rfl).elim
    · obtain ⟨_, ts₁, rfl, h₁⟩ := tokens_eq_cons h
      obtain ⟨_, ts₂, rfl, h₂⟩ := tokens_eq_cons h₁
      obtain ⟨_, ts₃, rfl, -⟩ := tokens_eq_cons h₂
      exact (harrow _ _ _ _ _ rfl).elim
    · rfl

theorem lambdaAhead_congr (h : tokens ts = tokens us) : lambdaAhead ts = lambdaAhead us := by
  unfold lambdaAhead
  split
  · obtain ⟨_, us₁, rfl, h₁⟩ := tokens_eq_cons h.symm
    obtain ⟨_, us₂, rfl, -⟩ := tokens_eq_cons h₁
    rfl
  · rename_i hother
    split
    · obtain ⟨_, ts₁, rfl, h₁⟩ := tokens_eq_cons h
      obtain ⟨_, ts₂, rfl, -⟩ := tokens_eq_cons h₁
      exact (hother _ _ _ rfl).elim
    · exact namesThenArrow_congr ts us h

theorem functionParameters_alike (h : tokens ts = tokens us) :
    Alike (functionParameters ts) (functionParameters us) := by
  unfold functionParameters
  split
  · obtain ⟨_, us, rfl, -⟩ := tokens_eq_cons h.symm
    exact parameters_alike h
  · rename_i hother
    split
    · obtain ⟨_, ts, rfl, -⟩ := tokens_eq_cons h
      exact (hother _ _ rfl).elim
    · exact .bind (identifier_alike h) fun name left left' _ _ hleft => .pure hleft

theorem procedureLocals_alike (h : tokens ts = tokens us) : Alike (procedureLocals ts) (procedureLocals us) := by
  unfold procedureLocals
  split
  · obtain ⟨_, us₁, rfl, h₁⟩ := tokens_eq_cons h.symm
    exact .bind (identifiers_alike _ us₁ h₁.symm) fun names left left' _ _ hleft => .pure hleft
  · rename_i hother
    split
    · obtain ⟨_, ts, rfl, -⟩ := tokens_eq_cons h
      exact (hother _ _ rfl).elim
    · exact .pure h

/-! ## Phrases -/

mutual

theorem items_alike (ts us : List Located) (h : tokens ts = tokens us) : Alike (items ts) (items us) := by
  unfold items
  refine .bind (expression_alike ts us h) fun item rest rest' _ _ hrest => ?_
  dsimp only
  split
  · obtain ⟨_, more', rfl, hmore⟩ := tokens_eq_cons hrest.symm
    exact .bind (items_alike _ more' hmore.symm) fun later left left' _ _ hleft => .pure hleft
  · rename_i hother
    split
    · obtain ⟨_, more, rfl, -⟩ := tokens_eq_cons hrest
      exact absurd HEq.rfl (hother _ _ _ rfl)
    · exact .pure hrest
termination_by 8 * ts.length + 6
decreasing_by all_goals (subst_vars; simp only [List.length_cons] at *; omega)

theorem expressions_alike (ts us : List Located) (h : tokens ts = tokens us) :
    Alike (expressions ts) (expressions us) := by
  unfold expressions
  refine .bind (expression_alike ts us h) fun item rest rest' _ _ hrest => ?_
  dsimp only
  split
  · obtain ⟨_, more', rfl, hmore⟩ := tokens_eq_cons hrest.symm
    exact .bind (expressions_alike _ more' hmore.symm) fun later left left' _ _ hleft => .pure hleft
  · rename_i hother
    split
    · obtain ⟨_, more, rfl, -⟩ := tokens_eq_cons hrest
      exact absurd HEq.rfl (hother _ _ _ rfl)
    · exact .pure hrest
termination_by 8 * ts.length + 6
decreasing_by all_goals (subst_vars; simp only [List.length_cons] at *; omega)

theorem bindings_alike (ts us : List Located) (h : tokens ts = tokens us) : Alike (bindings ts) (bindings us) := by
  unfold bindings
  refine .bind (identifier_alike h) fun name rest₁ rest₁' h₁ _ hrest₁ => ?_
  refine .bind (expect_alike _ hrest₁) fun _ rest₂ rest₂' h₂ _ hrest₂ => ?_
  refine .bind (expression_alike rest₂ rest₂' hrest₂) fun value rest₃ rest₃' h₃ _ hrest₃ => ?_
  dsimp only
  split
  · obtain ⟨_, more', rfl, hmore⟩ := tokens_eq_cons hrest₃.symm
    exact .bind (bindings_alike _ more' hmore.symm) fun later left left' _ _ hleft => .pure hleft
  · rename_i hother
    split
    · obtain ⟨_, more, rfl, -⟩ := tokens_eq_cons hrest₃
      exact absurd HEq.rfl (hother _ _ _ rfl)
    · exact .pure hrest₃
termination_by 8 * ts.length + 6
decreasing_by all_goals (subst_vars; simp only [List.length_cons] at *; omega)

theorem arguments_alike (ts us : List Located) (h : tokens ts = tokens us) : Alike (arguments ts) (arguments us) := by
  unfold arguments
  split
  · obtain ⟨_, left', rfl, hleft⟩ := tokens_eq_cons h.symm
    exact .pure hleft.symm
  · rename_i hother
    split
    · obtain ⟨_, left, rfl, -⟩ := tokens_eq_cons h
      exact (hother _ _ rfl).elim
    · refine .bind (expressions_alike ts us h) fun args rest rest' _ _ hrest => ?_
      exact .bind (expect_alike _ hrest) fun _ left left' _ _ hleft => .pure hleft
termination_by 8 * ts.length + 7
decreasing_by all_goals (subst_vars; omega)

theorem expression_alike (ts us : List Located) (h : tokens ts = tokens us) :
    Alike (expression ts) (expression us) := by
  unfold expression
  split
  · obtain ⟨_, us, rfl, hrest⟩ := tokens_eq_cons h.symm
    dsimp only
    split
    · exact .bind (form_alike _ _ us hrest.symm) fun e left left' _ _ hleft => .pure hleft
    · exact binary_alike 0 _ _ h
  · obtain ⟨_, us₁, rfl, h₁⟩ := tokens_eq_cons h.symm
    obtain ⟨_, us₂, rfl, h₂⟩ := tokens_eq_cons h₁
    exact .bind (expression_alike _ us₂ h₂.symm) fun body left left' _ _ hleft => .pure hleft
  · obtain ⟨_, us₁, rfl, h₁⟩ := tokens_eq_cons h.symm
    obtain ⟨_, us₂, rfl, h₂⟩ := tokens_eq_cons h₁
    exact .bind (expression_alike _ us₂ h₂.symm) fun value left left' _ _ hleft => .pure hleft
  · obtain ⟨_, us, rfl, hrest⟩ := tokens_eq_cons h.symm
    dsimp only
    rw [lambdaAhead_congr hrest]
    split
    · refine .bind (parameters_alike h) fun params rest₁ rest₁' h₁ _ hrest₁ => ?_
      refine .bind (expect_alike _ hrest₁) fun _ rest₂ rest₂' h₂ _ hrest₂ => ?_
      have hless : rest₂.length < _ := Nat.lt_trans h₂ h₁
      exact .bind (expression_alike rest₂ rest₂' hrest₂) fun body left left' _ _ hleft => .pure hleft
    · exact binary_alike 0 _ _ h
  · rename_i hkeyword harrow hassign hparen
    split
    · obtain ⟨_, ts, rfl, -⟩ := tokens_eq_cons h
      exact (hkeyword _ _ _ rfl).elim
    · obtain ⟨_, ts₁, rfl, h₁⟩ := tokens_eq_cons h
      obtain ⟨_, ts₂, rfl, -⟩ := tokens_eq_cons h₁
      exact (harrow _ _ _ _ rfl).elim
    · obtain ⟨_, ts₁, rfl, h₁⟩ := tokens_eq_cons h
      obtain ⟨_, ts₂, rfl, -⟩ := tokens_eq_cons h₁
      exact (hassign _ _ _ _ rfl).elim
    · obtain ⟨_, ts, rfl, -⟩ := tokens_eq_cons h
      exact (hparen _ _ rfl).elim
    · exact binary_alike 0 ts us h
termination_by 8 * ts.length + 5
decreasing_by all_goals (subst_vars; simp only [List.length_cons] at *; omega)

theorem form_alike (f : Form) (ts us : List Located) (h : tokens ts = tokens us) : Alike (form f ts) (form f us) := by
  unfold form
  cases f with
  | block =>
    refine .bind (bindings_alike ts us h) fun bound rest₁ rest₁' _ _ hrest₁ => ?_
    refine .bind (expect_alike _ hrest₁) fun _ rest₂ rest₂' _ _ hrest₂ => ?_
    exact .bind (expression_alike rest₂ rest₂' hrest₂) fun body left left' _ _ hleft => .pure hleft
  | ite =>
    refine .bind (expression_alike ts us h) fun cond rest₁ rest₁' _ _ hrest₁ => ?_
    refine .bind (expect_alike _ hrest₁) fun _ rest₂ rest₂' _ _ hrest₂ => ?_
    refine .bind (expression_alike rest₂ rest₂' hrest₂) fun thenBranch rest₃ rest₃' _ _ hrest₃ => ?_
    dsimp only
    split
    · obtain ⟨_, more', rfl, hmore⟩ := tokens_eq_cons hrest₃.symm
      exact .bind (expression_alike _ more' hmore.symm) fun elseBranch left left' _ _ hleft => .pure hleft
    · rename_i hother
      split
      · obtain ⟨_, more, rfl, -⟩ := tokens_eq_cons hrest₃
        exact absurd HEq.rfl (hother _ _ _ rfl)
      · exact .pure hrest₃
  | whileDo | doWhile | loop =>
    refine .bind (expression_alike ts us h) fun first rest₁ rest₁' _ _ hrest₁ => ?_
    refine .bind (expect_alike _ hrest₁) fun _ rest₂ rest₂' _ _ hrest₂ => ?_
    exact .bind (expression_alike rest₂ rest₂' hrest₂) fun second left left' _ _ hleft => .pure hleft
  | function =>
    refine .bind (identifier_alike h) fun name rest₁ rest₁' _ _ hrest₁ => ?_
    refine .bind (functionParameters_alike hrest₁) fun params rest₂ rest₂' _ _ hrest₂ => ?_
    refine .bind (expect_alike _ hrest₂) fun _ rest₃ rest₃' _ _ hrest₃ => ?_
    exact .bind (expression_alike rest₃ rest₃' hrest₃) fun body left left' _ _ hleft => .pure hleft
  | procedure =>
    refine .bind (parameters_alike h) fun params rest₁ rest₁' _ _ hrest₁ => ?_
    refine .bind (procedureLocals_alike hrest₁) fun locals rest₂ rest₂' _ _ hrest₂ => ?_
    refine .bind (expect_alike _ hrest₂) fun _ rest₃ rest₃' _ _ hrest₃ => ?_
    exact .bind (expression_alike rest₃ rest₃' hrest₃) fun body left left' _ _ hleft => .pure hleft
termination_by 8 * ts.length + 7
decreasing_by all_goals (subst_vars; simp only [List.length_cons] at *; omega)

theorem binary_alike (floor : Nat) (ts us : List Located) (h : tokens ts = tokens us) :
    Alike (binary floor ts) (binary floor us) := by
  unfold binary
  refine .bind (unary_alike ts us h) fun lhs rest rest' _ _ hrest => ?_
  exact .bind (operators_alike floor lhs rest rest' hrest) fun e left left' _ _ hleft => .pure hleft
termination_by 8 * ts.length + 4
decreasing_by all_goals (simp only at *; omega)

theorem operators_alike (floor : Nat) (lhs : Expr) (ts us : List Located) (h : tokens ts = tokens us) :
    Alike (operators floor lhs ts) (operators floor lhs us) := by
  cases ts with
  | nil =>
    cases us with
    | nil => exact rfl
    | cons u us => cases h
  | cons t ts =>
    obtain ⟨span, us, rfl, hrest⟩ := tokens_eq_cons h.symm
    unfold operators
    dsimp only
    split
    · split
      · refine .bind (binary_alike _ ts us hrest.symm) fun rhs rest₁ rest₁' _ _ hrest₁ => ?_
        exact .bind (operators_alike floor _ rest₁ rest₁' hrest₁) fun e left left' _ _ hleft => .pure hleft
      · exact .pure h
    · exact .pure h
termination_by 8 * ts.length
decreasing_by all_goals (subst_vars; simp only [List.length_cons] at *; omega)

theorem unary_alike (ts us : List Located) (h : tokens ts = tokens us) : Alike (unary ts) (unary us) := by
  unfold unary
  split
  · obtain ⟨_, us, rfl, hrest⟩ := tokens_eq_cons h.symm
    exact .bind (unary_alike _ us hrest.symm) fun operand left left' _ _ hleft => .pure hleft
  · obtain ⟨_, us, rfl, hrest⟩ := tokens_eq_cons h.symm
    exact .bind (unary_alike _ us hrest.symm) fun operand left left' _ _ hleft => .pure hleft
  · rename_i hminus hnot
    split
    · obtain ⟨_, ts, rfl, -⟩ := tokens_eq_cons h
      exact (hminus _ _ rfl).elim
    · obtain ⟨_, ts, rfl, -⟩ := tokens_eq_cons h
      exact (hnot _ _ rfl).elim
    · refine .bind (primary_alike ts us h) fun head rest rest' _ _ hrest => ?_
      exact .bind (calls_alike head rest rest' hrest) fun e left left' _ _ hleft => .pure hleft
termination_by 8 * ts.length + 3
decreasing_by all_goals (subst_vars; simp only [List.length_cons] at *; omega)

theorem calls_alike (callee : Expr) (ts us : List Located) (h : tokens ts = tokens us) :
    Alike (calls callee ts) (calls callee us) := by
  unfold calls
  split
  · obtain ⟨_, us, rfl, hrest⟩ := tokens_eq_cons h.symm
    refine .bind (arguments_alike _ us hrest.symm) fun args rest₁ rest₁' _ _ hrest₁ => ?_
    exact .bind (calls_alike _ rest₁ rest₁' hrest₁) fun e left left' _ _ hleft => .pure hleft
  · rename_i hother
    split
    · obtain ⟨_, ts, rfl, -⟩ := tokens_eq_cons h
      exact (hother _ _ rfl).elim
    · exact .pure h
termination_by 8 * ts.length
decreasing_by all_goals (subst_vars; simp only [List.length_cons] at *; omega)

theorem primary_alike (ts us : List Located) (h : tokens ts = tokens us) : Alike (primary ts) (primary us) := by
  unfold primary
  split
  · obtain ⟨_, us, rfl, hrest⟩ := tokens_eq_cons h.symm
    exact .pure hrest.symm
  · obtain ⟨_, us, rfl, hrest⟩ := tokens_eq_cons h.symm
    exact .pure hrest.symm
  · obtain ⟨_, us, rfl, hrest⟩ := tokens_eq_cons h.symm
    exact .pure hrest.symm
  · obtain ⟨_, us, rfl, hrest⟩ := tokens_eq_cons h.symm
    exact .pure hrest.symm
  · obtain ⟨_, us, rfl, hrest⟩ := tokens_eq_cons h.symm
    refine .bind (items_alike _ us hrest.symm) fun inner rest₁ rest₁' _ _ hrest₁ => ?_
    exact .bind (expect_alike _ hrest₁) fun _ left left' _ _ hleft => .pure hleft
  · obtain ⟨_, us, rfl, hrest⟩ := tokens_eq_cons h.symm
    refine .bind (items_alike _ us hrest.symm) fun inner rest₁ rest₁' _ _ hrest₁ => ?_
    exact .bind (expect_alike _ hrest₁) fun _ left left' _ _ hleft => .pure hleft
  · rename_i word _ rest htrue hfalse
    obtain ⟨_, us₁, rfl, hrest⟩ := tokens_eq_cons h.symm
    cases word with
    | trueWord => exact (htrue rfl).elim
    | falseWord => exact (hfalse rfl).elim
    | localWord | ifWord | whileWord | doWord | loopWord | funWord | procWord =>
      exact .bind (form_alike _ rest us₁ hrest.symm) fun e left left' _ _ hleft => .pure hleft
    | inWord | thenWord | elseWord | andWord | orWord | notWord => exact .error (cause_unexpected _ h)
  · rename_i hnumber htrue hfalse hident hparen hbrace hkeyword
    split
    · obtain ⟨_, ts₁, rfl, -⟩ := tokens_eq_cons h
      exact (hnumber _ _ _ rfl).elim
    · obtain ⟨_, ts₁, rfl, -⟩ := tokens_eq_cons h
      exact (htrue _ _ rfl).elim
    · obtain ⟨_, ts₁, rfl, -⟩ := tokens_eq_cons h
      exact (hfalse _ _ rfl).elim
    · obtain ⟨_, ts₁, rfl, -⟩ := tokens_eq_cons h
      exact (hident _ _ _ rfl).elim
    · obtain ⟨_, ts₁, rfl, -⟩ := tokens_eq_cons h
      exact (hparen _ _ rfl).elim
    · obtain ⟨_, ts₁, rfl, -⟩ := tokens_eq_cons h
      exact (hbrace _ _ rfl).elim
    · obtain ⟨_, ts₁, rfl, -⟩ := tokens_eq_cons h
      exact (hkeyword _ _ _ rfl).elim
    · exact .error (cause_unexpected _ h)
termination_by 8 * ts.length + 2
decreasing_by all_goals (subst_vars; simp only [List.length_cons] at *; omega)

end

/-- **Places.** Whole lists of tokens that differ in places only are parsed to the same expression, or refused for the
same cause. -/
theorem program_alike (h : tokens ts = tokens us) :
    (program ts).mapError SyntaxError.cause = (program us).mapError SyntaxError.cause := by
  have hitems := items_alike ts us h
  unfold program
  cases hts : items ts with
  | error e =>
    cases hus : items us with
    | error e' =>
      rw [hts, hus] at hitems
      have hcause : e.cause = e'.cause := Except.error.inj hitems
      exact congrArg Except.error hcause
    | ok r' =>
      rw [hts, hus] at hitems
      cases hitems
  | ok r =>
    cases hus : items us with
    | error e' =>
      rw [hts, hus] at hitems
      cases hitems
    | ok r' =>
      rw [hts, hus] at hitems
      obtain ⟨⟨inner, rest⟩, h₁⟩ := r
      obtain ⟨⟨inner', rest'⟩, h₂⟩ := r'
      obtain ⟨rfl, hrest⟩ := Prod.mk.inj (Except.ok.inj hitems)
      change tokens rest = tokens rest' at hrest
      simp only [bind, Except.bind]
      split
      · obtain ⟨_, rest₁, rfl, -⟩ := tokens_eq_cons hrest.symm
        rfl
      · rename_i hother
        split
        · obtain ⟨_, rest₁, rfl, -⟩ := tokens_eq_cons hrest
          exact (hother _ _ rfl).elim
        · exact congrArg Except.error (cause_unexpected _ hrest)

end ThreeMachines.Parse
