/-
Every well-formed expression is spelled by a text.

`Expr.body` writes an expression as tokens, with every part in parentheses, so no part runs into what follows it. The
parser reads it back exactly (`Parse.readsBack`), the scanner reads its spelling back exactly (`Token.scanFrom_spell`),
and the expressions that some text spells are the well-formed ones (`exists_parse_iff_wellFormed`).
-/
import ThreeMachines.Proofs.Parsing.Programs
import ThreeMachines.Proofs.Parsing.WellFormed

namespace ThreeMachines

open Parse Grammar

/-! ## Writing -/

def UnaryOp.token : UnaryOp → Token
  | neg => .mark .minus
  | not => .keyword .notWord

def BinaryOp.token : BinaryOp → Token
  | add => .mark .plus
  | sub => .mark .minus
  | mul => .mark .star
  | div => .mark .slash
  | lt => .mark .less
  | gt => .mark .greater
  | le => .mark .lessEqual
  | ge => .mark .greaterEqual
  | eq => .mark .equalEqual
  | ne => .mark .bangEqual
  | and => .keyword .andWord
  | or => .keyword .orWord

def inParens (u : List Token) : List Token := .mark .leftParen :: u ++ [.mark .rightParen]

theorem inParens_append (u w : List Token) : inParens u ++ w = .mark .leftParen :: (u ++ .mark .rightParen :: w) := by
  simp [inParens]

/-- the phrases with commas between them -/
def withCommas (us : List (List Token)) : List Token := [.mark .comma].intercalate us

def nameList (names : List String) : List Token := withCommas (names.map fun x => [.ident x])

/-- the names after the word `local` of a procedure, if there are any -/
def localsBody : List String → List Token
  | [] => []
  | x :: xs => .keyword .localWord :: nameList (x :: xs)

namespace Expr

mutual

/-- the expression as tokens, with every part in parentheses -/
def body : Expr → List Token
  | number value => [.number value]
  | bool true => [.keyword .trueWord]
  | bool false => [.keyword .falseWord]
  | var name => [.ident name]
  | unary op operand => op.token :: inParens operand.body
  | binary op lhs rhs => inParens lhs.body ++ op.token :: inParens rhs.body
  | assign name value => .ident name :: .mark .assign :: inParens value.body
  | seq items => [.mark .semicolon].intercalate (bodies items)
  | ite cond thenBranch elseBranch =>
    .keyword .ifWord :: inParens cond.body ++ .keyword .thenWord :: inParens thenBranch.body ++ elseBody elseBranch
  | whileDo cond e => .keyword .whileWord :: inParens cond.body ++ .keyword .doWord :: inParens e.body
  | doWhile e cond => .keyword .doWord :: inParens e.body ++ .keyword .whileWord :: inParens cond.body
  | loop count e => .keyword .loopWord :: inParens count.body ++ .keyword .doWord :: inParens e.body
  | block bindings e =>
    .keyword .localWord :: withCommas (bindingBodies bindings) ++ .keyword .inWord :: inParens e.body
  | lambda params e => inParens (nameList params) ++ .mark .arrow :: inParens e.body
  | proc params locals e =>
    .keyword .procWord :: inParens (nameList params) ++ localsBody locals ++ .mark .arrow :: inParens e.body
  | call callee args => inParens callee.body ++ inParens (withCommas (bodies args))

/-- each expression in parentheses -/
def bodies : List Expr → List (List Token)
  | [] => []
  | e :: es => inParens e.body :: bodies es

def elseBody : Option Expr → List Token
  | none => []
  | some e => .keyword .elseWord :: inParens e.body

def bindingBodies : List (String × Expr) → List (List Token)
  | [] => []
  | (name, value) :: rest => (.ident name :: .mark .assign :: inParens value.body) :: bindingBodies rest

end

variable {e : Expr}

theorem bodies_eq (es : List Expr) : bodies es = es.map fun e => inParens e.body := by
  induction es with
  | nil => rfl
  | cons e es ih => rw [bodies, ih, List.map_cons]

theorem bindingBodies_eq (bindings : List (String × Expr)) :
    bindingBodies bindings = bindings.map fun b => .ident b.1 :: .mark .assign :: inParens b.2.body := by
  induction bindings with
  | nil => rfl
  | cons b bindings ih => rw [bindingBodies, ih, List.map_cons]

end Expr

/-! ## Reading back -/

namespace Parse

section
variable {α β : Type} {p : α × List Located → Prop} {q : β × List Located → Prop} {n : Nat} {a : α} {b : β}
  {v w : List Token}

/-- the reader gives `a` and leaves `w` -/
def Exactly (x : Except SyntaxError { r : α × List Located // p r }) (a : α) (w : List Token) : Prop :=
  Gives x fun a' left => a' = a ∧ left = w

namespace Exactly

theorem pure {left : List Located} {h : p (a, left)} (hw : tokens left = w) : Exactly (Pure.pure ⟨(a, left), h⟩) a w :=
  Gives.pure ⟨rfl, hw⟩

theorem bind {x : Except SyntaxError { r : α × List Located // r.2.length < n }}
    {f : { r : α × List Located // r.2.length < n } → Except SyntaxError { r : β × List Located // q r }}
    (hx : Exactly x a v) (hf : ∀ left (h : left.length < n), tokens left = v → Exactly (f ⟨(a, left), h⟩) b w) :
    Exactly (x >>= f) b w :=
  Gives.bind hx fun _ left h ⟨ha, hv⟩ => by
    subst ha
    exact hf left h hv

theorem bindContinued {x : Except SyntaxError { r : α × List Located // r.2.length ≤ n }}
    {f : { r : α × List Located // r.2.length ≤ n } → Except SyntaxError { r : β × List Located // q r }}
    (hx : Exactly x a v) (hf : ∀ left (h : left.length ≤ n), tokens left = v → Exactly (f ⟨(a, left), h⟩) b w) :
    Exactly (x >>= f) b w :=
  Gives.bindContinued hx fun _ left h ⟨ha, hv⟩ => by
    subst ha
    exact hf left h hv

end Exactly
end

variable {ts : List Located} {t : Token} {w : List Token} {e : Expr} {x : String} {names : List String}

theorem expect_exactly (h : tokens ts = t :: w) : Exactly (expect t ts) () w := by
  obtain ⟨span, rest, rfl, rfl⟩ := tokens_eq_cons h
  unfold expect
  exact ⟨_, if_pos rfl, rfl, rfl⟩

theorem identifier_exactly (h : tokens ts = .ident x :: w) : Exactly (identifier ts) x w := by
  obtain ⟨span, rest, rfl, rfl⟩ := tokens_eq_cons h
  exact .pure rfl

theorem nameList_cons_cons (x y : String) (names : List String) :
    nameList (x :: y :: names) = .ident x :: .mark .comma :: nameList (y :: names) := by
  simp [nameList, withCommas]

theorem identifiers_exactly {xs : List String} (ht : t ≠ .mark .comma) {x : String} {ts : List Located}
    (h : tokens ts = nameList (x :: xs) ++ t :: w) : Exactly (identifiers ts) (x :: xs) (t :: w) := by
  unfold identifiers
  cases xs with
  | nil =>
    refine .bind (identifier_exactly h) fun rest hrest hleft => ?_
    dsimp only
    split
    · cases hleft
      exact absurd rfl ht
    · exact .pure hleft
  | cons y ys =>
    rw [nameList_cons_cons] at h
    refine .bind (identifier_exactly h) fun rest hrest hleft => ?_
    obtain ⟨span, more, rfl, hmore⟩ := tokens_eq_cons hleft
    refine .bind (identifiers_exactly ht hmore) fun left _ hleft => .pure hleft
termination_by xs.length

theorem nameList_cons (x : String) (xs : List String) : ∃ u, nameList (x :: xs) = .ident x :: u := by
  cases xs with
  | nil => exact ⟨[], rfl⟩
  | cons y ys => exact ⟨_, nameList_cons_cons x y ys⟩

theorem parameters_exactly (h : tokens ts = inParens (nameList names) ++ w) : Exactly (parameters ts) names w := by
  rw [inParens_append] at h
  unfold parameters
  refine .bind (expect_exactly h) fun rest hrest hleft => ?_
  cases names with
  | nil =>
    obtain ⟨span, more, rfl, rfl⟩ := tokens_eq_cons hleft
    exact .pure rfl
  | cons x xs =>
    dsimp only
    split
    · obtain ⟨u, hu⟩ := nameList_cons x xs
      rw [hu] at hleft
      cases hleft
    · refine .bind (identifiers_exactly (by decide) hleft) fun rest₁ _ hrest₁ => ?_
      exact .bind (expect_exactly hrest₁) fun left _ hleft => .pure hleft

/-! ## Parts in parentheses -/

/-- neither a call nor an operator nor a lambda's body starts with this token -/
def closes (t : Token) : Bool := (operator? t).isNone && t ∉ [.mark .leftParen, .mark .arrow]

/-- in parentheses, the expression is read back as an operand -/
def ReadsBack (e : Expr) : Prop :=
  ∀ ts w, tokens ts = inParens e.body ++ w → Exactly (primary ts) e w

theorem calls_exactly (ht : t ≠ .mark .leftParen) (h : tokens ts = t :: w) : Exactly (calls e ts) e (t :: w) := by
  unfold calls
  split
  · cases h
    exact absurd rfl ht
  · exact .pure h

theorem operators_exactly {floor : Nat} (ht : ∀ op n, operator? t = some (op, n) → n ≤ floor)
    (h : tokens ts = t :: w) : Exactly (operators floor e ts) e (t :: w) := by
  obtain ⟨span, rest, rfl, rfl⟩ := tokens_eq_cons h
  unfold operators
  dsimp only
  split
  · rename_i hop
    rw [if_neg (Nat.not_lt.2 (ht _ _ hop))]
    exact .pure rfl
  · exact .pure rfl

/-- an operand in parentheses, without a call after it -/
theorem unary_exactly (he : ReadsBack e) (ht : t ≠ .mark .leftParen) (h : tokens ts = inParens e.body ++ t :: w) :
    Exactly (unary ts) e (t :: w) := by
  rw [inParens_append] at h
  obtain ⟨span, rest, rfl, hrest⟩ := tokens_eq_cons h
  rw [unary]
  · refine .bind (he _ _ (by rw [tokens_cons, hrest, inParens_append])) fun left _ hleft => ?_
    exact .bindContinued (calls_exactly ht hleft) fun left _ hleft => .pure hleft
  · simp
  · simp

/-- an operand that no operator follows -/
theorem binary_exactly {floor : Nat} (hu : Exactly (unary ts) e (t :: w)) (ht : operator? t = none) :
    Exactly (binary floor ts) e (t :: w) := by
  unfold binary
  refine .bind hu fun left _ hleft => ?_
  exact .bindContinued (operators_exactly (by simp [ht]) hleft) fun left _ hleft => .pure hleft

/-- what the parameters of a lambda start with -/
theorem lambdaAhead_starts (h : lambdaAhead ts = true) : ∃ v, tokens ts = .mark .rightParen :: .mark .arrow :: v ∨
    ∃ x, tokens ts = .ident x :: .mark .comma :: v ∨
      tokens ts = .ident x :: .mark .rightParen :: .mark .arrow :: v := by
  unfold lambdaAhead at h
  split at h
  · exact ⟨_, .inl rfl⟩
  · unfold namesThenArrow at h
    split at h
    · exact ⟨_, .inr ⟨_, .inl rfl⟩⟩
    · exact ⟨_, .inr ⟨_, .inr rfl⟩⟩
    · cases h

theorem lambdaAhead_body (ht : t ≠ .mark .arrow) (h : tokens ts = e.body ++ .mark .rightParen :: t :: w) :
    ¬ lambdaAhead ts = true := by
  intro hahead
  obtain ⟨v, hv⟩ := lambdaAhead_starts hahead
  rw [h] at hv
  cases e with
  | bool b => cases b <;> simp [Expr.body] at hv
  | unary op operand => cases op <;> simp [Expr.body, UnaryOp.token] at hv
  | seq es =>
    match es with
    | [] => simp_all [Expr.body, Expr.bodies]
    | [e] => simp [Expr.body, Expr.bodies, inParens] at hv
    | e :: e' :: es => simp [Expr.body, Expr.bodies, inParens] at hv
  | _ => simp_all [Expr.body, inParens]

/-- what starts with a part in parentheses is an operand with operators, if no arrow follows -/
theorem expression_paren {e' : Expr} {v : List Token} (ht : t ≠ .mark .arrow)
    (h : tokens ts = inParens e'.body ++ t :: v) (hb : Exactly (binary 0 ts) e w) : Exactly (expression ts) e w := by
  rw [inParens_append] at h
  obtain ⟨span, rest, rfl, hrest⟩ := tokens_eq_cons h
  rw [expression, if_neg (lambdaAhead_body ht hrest)]
  exact hb

/-- a part in parentheses is read back as an expression -/
theorem expression_exactly (he : ReadsBack e) (ht : closes t) (h : tokens ts = inParens e.body ++ t :: w) :
    Exactly (expression ts) e (t :: w) := by
  simp only [closes, Bool.and_eq_true, Option.isNone_iff_eq_none, decide_eq_true_eq, List.mem_cons, not_or] at ht
  obtain ⟨hop, hparen, harrow, -⟩ := ht
  exact expression_paren harrow h (binary_exactly (unary_exactly he hparen h) hop)

/-! ## Lists of parts -/

theorem items_exactly {es : List Expr} (hes : ∀ e ∈ es, ReadsBack e) (hne : es ≠ []) {ts : List Located}
    (h : tokens ts = [.mark .semicolon].intercalate (Expr.bodies es) ++ .mark .rightParen :: w) :
    Exactly (items ts) es (.mark .rightParen :: w) := by
  unfold items
  match es, hne with
  | [e], _ =>
    rw [Expr.bodies, Expr.bodies, List.intercalate_singleton] at h
    refine .bind (expression_exactly (hes e (by simp)) (by decide) h) fun rest hrest hleft => ?_
    obtain ⟨span, more, rfl, rfl⟩ := tokens_eq_cons hleft
    exact .pure rfl
  | e :: e' :: es, _ =>
    rw [Expr.bodies, Expr.bodies, List.intercalate_cons_cons, List.append_assoc, List.append_assoc] at h
    refine .bind (expression_exactly (hes e (by simp)) (by decide) h) fun rest hrest hleft => ?_
    obtain ⟨span, more, rfl, hmore⟩ := tokens_eq_cons hleft
    have hlater := items_exactly (fun e he => hes e (List.mem_cons_of_mem _ he)) (List.cons_ne_nil e' es) hmore
    exact .bind hlater fun left _ hleft => .pure hleft
termination_by es.length

theorem expressions_exactly {es : List Expr} (hes : ∀ e ∈ es, ReadsBack e) (hne : es ≠ []) {ts : List Located}
    (h : tokens ts = withCommas (Expr.bodies es) ++ .mark .rightParen :: w) :
    Exactly (expressions ts) es (.mark .rightParen :: w) := by
  unfold expressions
  match es, hne with
  | [e], _ =>
    rw [Expr.bodies, Expr.bodies, withCommas, List.intercalate_singleton] at h
    refine .bind (expression_exactly (hes e (by simp)) (by decide) h) fun rest hrest hleft => ?_
    obtain ⟨span, more, rfl, rfl⟩ := tokens_eq_cons hleft
    exact .pure rfl
  | e :: e' :: es, _ =>
    rw [Expr.bodies, Expr.bodies, withCommas, List.intercalate_cons_cons, List.append_assoc, List.append_assoc] at h
    refine .bind (expression_exactly (hes e (by simp)) (by decide) h) fun rest hrest hleft => ?_
    obtain ⟨span, more, rfl, hmore⟩ := tokens_eq_cons hleft
    have hlater := expressions_exactly (fun e he => hes e (List.mem_cons_of_mem _ he)) (List.cons_ne_nil e' es) hmore
    exact .bind hlater fun left _ hleft => .pure hleft
termination_by es.length

theorem arguments_exactly {es : List Expr} (hes : ∀ e ∈ es, ReadsBack e)
    (h : tokens ts = withCommas (Expr.bodies es) ++ .mark .rightParen :: w) : Exactly (arguments ts) es w := by
  cases es with
  | nil =>
    obtain ⟨span, left, rfl, rfl⟩ := tokens_eq_cons h
    rw [arguments]
    exact .pure rfl
  | cons e es =>
    obtain ⟨u, hu⟩ : ∃ u, withCommas (Expr.bodies (e :: es)) = .mark .leftParen :: u := by
      cases es <;> exact ⟨_, rfl⟩
    obtain ⟨span, rest, rfl, -⟩ := tokens_eq_cons (h.trans (congrArg (· ++ _) hu))
    rw [arguments]
    · refine .bind (expressions_exactly hes (List.cons_ne_nil e es) h) fun rest _ hrest => ?_
      exact .bind (expect_exactly hrest) fun left _ hleft => .pure hleft
    · simp

theorem bindings_exactly {bound : List (String × Expr)} (hbound : ∀ b ∈ bound, ReadsBack b.2) (hne : bound ≠ [])
    {ts : List Located} (h : tokens ts = withCommas (Expr.bindingBodies bound) ++ .keyword .inWord :: w) :
    Exactly (bindings ts) bound (.keyword .inWord :: w) := by
  unfold bindings
  match bound, hne with
  | [(x, e)], _ =>
    rw [Expr.bindingBodies, Expr.bindingBodies, withCommas, List.intercalate_singleton] at h
    refine .bind (identifier_exactly h) fun rest₁ _ h₁ => ?_
    refine .bind (expect_exactly h₁) fun rest₂ _ h₂ => ?_
    refine .bind (expression_exactly (hbound (x, e) (by simp)) (by decide) h₂) fun rest hrest hleft => ?_
    obtain ⟨span, more, rfl, rfl⟩ := tokens_eq_cons hleft
    exact .pure rfl
  | (x, e) :: (y, e') :: bound, _ =>
    simp only [Expr.bindingBodies, withCommas, List.intercalate_cons_cons, List.append_assoc, List.cons_append] at h
    refine .bind (identifier_exactly h) fun rest₁ _ h₁ => ?_
    refine .bind (expect_exactly h₁) fun rest₂ _ h₂ => ?_
    refine .bind (expression_exactly (hbound (x, e) (by simp)) (by decide) h₂) fun rest hrest hleft => ?_
    obtain ⟨span, more, rfl, hmore⟩ := tokens_eq_cons hleft
    have hbound b hb := hbound b (List.mem_cons_of_mem _ hb)
    have hlater := bindings_exactly hbound (List.cons_ne_nil (y, e') bound) hmore
    exact .bind hlater fun left _ hleft => .pure hleft
termination_by bound.length

/-! ## Every kind of expression -/

/-- what is read back up to a closing parenthesis is read back in parentheses -/
theorem readsBack_of_items (h : ∀ ts w, tokens ts = e.body ++ .mark .rightParen :: w →
    ∃ es, Expr.ofItems es = e ∧ Exactly (items ts) es (.mark .rightParen :: w)) : ReadsBack e := by
  intro ts w hts
  rw [inParens_append] at hts
  obtain ⟨span, rest, rfl, hrest⟩ := tokens_eq_cons hts
  obtain ⟨es, rfl, hitems⟩ := h rest w hrest
  rw [primary]
  refine .bind hitems fun left _ hleft => ?_
  exact .bind (expect_exactly hleft) fun left _ hleft => .pure hleft

/-- one expression that no `;` follows -/
theorem item_exactly (h : Exactly (expression ts) e (t :: w)) (ht : t ≠ .mark .semicolon) :
    Exactly (items ts) [e] (t :: w) := by
  unfold items
  refine .bind h fun rest hrest hleft => ?_
  dsimp only
  split
  · exact absurd (List.cons.inj hleft).1.symm ht
  · exact .pure hleft

theorem readsBack_of_expression (h : ∀ ts w, tokens ts = e.body ++ .mark .rightParen :: w →
    Exactly (expression ts) e (.mark .rightParen :: w)) : ReadsBack e :=
  readsBack_of_items fun ts w hts => ⟨[e], rfl, item_exactly (h ts w hts) (by decide)⟩

/-- what starts with neither a form nor a parenthesis nor a name with `->` or `:=` is an operand with operators -/
theorem expression_operand {t' : Token} {v : List Token} (hform : ∀ k, t = .keyword k → form? k = none)
    (ht : t ≠ .mark .leftParen) (ht' : t' ∉ [.mark .arrow, .mark .assign]) (h : tokens ts = t :: t' :: v)
    (hb : Exactly (binary 0 ts) e w) : Exactly (expression ts) e w := by
  unfold expression
  split
  · rw [hform _ (List.cons.inj h).1.symm]
    exact hb
  · cases h
    simp at ht'
  · cases h
    simp at ht'
  · exact absurd (List.cons.inj h).1.symm ht
  · exact hb

/-- one token is read back -/
theorem readsBack_of_token (hbody : e.body = [t]) (hform : ∀ k, t = .keyword k → form? k = none)
    (ht : t ∉ [.mark .leftParen, .mark .minus, .keyword .notWord])
    (h : ∀ ts w, tokens ts = t :: w → Exactly (primary ts) e w) : ReadsBack e := by
  simp only [List.mem_cons, not_or] at ht
  obtain ⟨hparen, hminus, hnot, -⟩ := ht
  refine readsBack_of_expression fun ts w hts => ?_
  rw [hbody] at hts
  refine expression_operand hform hparen (by simp) hts (binary_exactly ?_ rfl)
  unfold unary
  split
  · exact absurd (List.cons.inj hts).1.symm hminus
  · exact absurd (List.cons.inj hts).1.symm hnot
  · refine .bind (h ts _ hts) fun left _ hleft => ?_
    exact .bindContinued (calls_exactly (by simp) hleft) fun left _ hleft => .pure hleft

theorem readsBack_unary {op : UnaryOp} (he : ReadsBack e) : ReadsBack (.unary op e) := by
  refine readsBack_of_expression fun ts w h => ?_
  cases op with
  | neg | not =>
    refine expression_operand ?_ ?_ ?_ h (binary_exactly ?_ rfl)
    · rintro _ ⟨⟩ <;> rfl
    · decide
    · decide
    · rw [Expr.body, UnaryOp.token] at h
      obtain ⟨span, rest, rfl, hrest⟩ := tokens_eq_cons h
      rw [unary]
      exact .bind (unary_exactly he (by simp) hrest) fun left _ hleft => .pure hleft

theorem operator?_token (op : BinaryOp) : ∃ n, 0 < n ∧ operator? op.token = some (op, n) := by
  cases op <;> exact ⟨_, by decide, rfl⟩

theorem readsBack_binary {op : BinaryOp} {lhs rhs : Expr} (hl : ReadsBack lhs) (hr : ReadsBack rhs) :
    ReadsBack (.binary op lhs rhs) := by
  obtain ⟨n, hn, hop⟩ := operator?_token op
  have hparen : op.token ≠ .mark .leftParen := by cases op <;> decide
  have harrow : op.token ≠ .mark .arrow := by cases op <;> decide
  refine readsBack_of_expression fun ts w h => ?_
  rw [Expr.body, List.append_assoc, List.cons_append] at h
  refine expression_paren harrow h ?_
  unfold binary
  refine .bind (unary_exactly hl hparen h) fun rest _ hrest => ?_
  refine .bindContinued (v := .mark .rightParen :: w) ?_ fun left _ hleft => .pure hleft
  obtain ⟨span, more, rfl, hmore⟩ := tokens_eq_cons hrest
  unfold operators
  simp only [hop, if_pos hn]
  refine .bind (binary_exactly (unary_exactly hr (by simp) hmore) rfl) fun rest₁ _ hrest₁ => ?_
  exact .bindContinued (operators_exactly (by simp [operator?]) hrest₁) fun left _ hleft => .pure hleft

theorem readsBack_call {callee : Expr} {args : List Expr} (hcallee : ReadsBack callee)
    (hargs : ∀ e ∈ args, ReadsBack e) : ReadsBack (.call callee args) := by
  refine readsBack_of_expression fun ts w h => ?_
  rw [Expr.body, List.append_assoc, inParens_append (withCommas _)] at h
  refine expression_paren (by simp) h (binary_exactly ?_ rfl)
  have hts := h
  rw [inParens_append] at h
  obtain ⟨span, rest, rfl, -⟩ := tokens_eq_cons h
  rw [unary]
  · refine .bind (hcallee _ _ hts) fun rest _ hrest => ?_
    refine .bindContinued (v := .mark .rightParen :: w) ?_ fun left _ hleft => .pure hleft
    obtain ⟨span, rest, rfl, harguments⟩ := tokens_eq_cons hrest
    rw [calls]
    refine .bind (arguments_exactly hargs harguments) fun rest₁ _ hrest₁ => ?_
    exact .bindContinued (calls_exactly (by simp) hrest₁) fun left _ hleft => .pure hleft
  · simp
  · simp

theorem readsBack_assign (he : ReadsBack e) : ReadsBack (.assign x e) := by
  refine readsBack_of_expression fun ts w h => ?_
  obtain ⟨_, _, rfl, hrest⟩ := tokens_eq_cons h
  obtain ⟨_, rest, rfl, hvalue⟩ := tokens_eq_cons hrest
  rw [expression]
  exact .bind (expression_exactly he (by decide) hvalue) fun left _ hleft => .pure hleft

theorem namesThenArrow_nameList {xs : List String} {x : String} {ts : List Located} {v : List Token}
    (h : tokens ts = nameList (x :: xs) ++ .mark .rightParen :: .mark .arrow :: v) : namesThenArrow ts = true := by
  cases xs with
  | nil =>
    obtain ⟨_, _, rfl, hrest⟩ := tokens_eq_cons h
    obtain ⟨_, _, rfl, harrow⟩ := tokens_eq_cons hrest
    obtain ⟨_, _, rfl, -⟩ := tokens_eq_cons harrow
    rfl
  | cons y ys =>
    rw [nameList_cons_cons] at h
    obtain ⟨_, _, rfl, hrest⟩ := tokens_eq_cons h
    obtain ⟨_, _, rfl, hmore⟩ := tokens_eq_cons hrest
    rw [namesThenArrow]
    exact namesThenArrow_nameList hmore
termination_by xs.length

theorem lambdaAhead_nameList {v : List Token}
    (h : tokens ts = nameList names ++ .mark .rightParen :: .mark .arrow :: v) : lambdaAhead ts = true := by
  cases names with
  | nil =>
    obtain ⟨_, _, rfl, hrest⟩ := tokens_eq_cons h
    obtain ⟨_, _, rfl, -⟩ := tokens_eq_cons hrest
    rfl
  | cons x xs =>
    unfold lambdaAhead
    split
    · rfl
    · exact namesThenArrow_nameList h

theorem readsBack_lambda (he : ReadsBack e) : ReadsBack (.lambda names e) := by
  refine readsBack_of_expression fun ts w h => ?_
  rw [Expr.body, List.append_assoc] at h
  have hts := h
  rw [inParens_append] at h
  obtain ⟨span, rest, rfl, hrest⟩ := tokens_eq_cons h
  rw [expression, if_pos (lambdaAhead_nameList hrest)]
  refine .bind (parameters_exactly hts) fun rest₁ _ h₁ => ?_
  refine .bind (expect_exactly h₁) fun rest₂ _ h₂ => ?_
  exact .bind (expression_exactly he (by decide) h₂) fun left _ hleft => .pure hleft

/-- a form is read back if what follows its keyword is -/
theorem readsBack_of_form {k : Keyword} {f : Form} {u : List Token} (hk : form? k = some f)
    (hbody : e.body = .keyword k :: u)
    (h : ∀ ts w, tokens ts = u ++ .mark .rightParen :: w → Exactly (form f ts) e (.mark .rightParen :: w)) :
    ReadsBack e := by
  refine readsBack_of_expression fun ts w hts => ?_
  rw [hbody] at hts
  obtain ⟨span, rest, rfl, hrest⟩ := tokens_eq_cons hts
  unfold expression
  simp only [hk]
  exact .bind (h rest w hrest) fun left _ hleft => .pure hleft

theorem readsBack_block {bound : List (String × Expr)} (hbound : ∀ b ∈ bound, ReadsBack b.2) (hne : bound ≠ [])
    (he : ReadsBack e) : ReadsBack (.block bound e) := by
  have hbody : (Expr.block bound e).body =
    .keyword .localWord :: (withCommas (Expr.bindingBodies bound) ++ .keyword .inWord :: inParens e.body) := rfl
  refine readsBack_of_form (f := .block) rfl hbody fun ts w h => ?_
  rw [List.append_assoc] at h
  rw [form]
  refine .bind (bindings_exactly hbound hne h) fun rest₁ _ h₁ => ?_
  refine .bind (expect_exactly h₁) fun rest₂ _ h₂ => ?_
  exact .bind (expression_exactly he (by decide) h₂) fun left _ hleft => .pure hleft

theorem readsBack_ifThen {cond thenBranch : Expr} (hcond : ReadsBack cond) (hthen : ReadsBack thenBranch) :
    ReadsBack (.ite cond thenBranch none) := by
  have hbody : (Expr.ite cond thenBranch none).body =
    .keyword .ifWord :: (inParens cond.body ++ .keyword .thenWord :: inParens thenBranch.body) := by
    simp [Expr.body, Expr.elseBody]
  refine readsBack_of_form (f := .ite) rfl hbody fun ts w h => ?_
  rw [List.append_assoc] at h
  rw [form]
  refine .bind (expression_exactly hcond (by decide) h) fun rest₁ _ h₁ => ?_
  refine .bind (expect_exactly h₁) fun rest₂ _ h₂ => ?_
  refine .bind (expression_exactly hthen (by decide) h₂) fun rest₃ h₃ hleft => ?_
  obtain ⟨span, more, rfl, rfl⟩ := tokens_eq_cons hleft
  exact .pure rfl

theorem readsBack_ifThenElse {cond thenBranch elseBranch : Expr} (hcond : ReadsBack cond) (hthen : ReadsBack thenBranch)
    (helse : ReadsBack elseBranch) : ReadsBack (.ite cond thenBranch (some elseBranch)) := by
  have hbody : (Expr.ite cond thenBranch (some elseBranch)).body = .keyword .ifWord :: (inParens cond.body ++
    .keyword .thenWord :: (inParens thenBranch.body ++ .keyword .elseWord :: inParens elseBranch.body)) := by
    simp [Expr.body, Expr.elseBody]
  refine readsBack_of_form (f := .ite) rfl hbody fun ts w h => ?_
  rw [List.append_assoc, List.cons_append, List.append_assoc] at h
  rw [form]
  refine .bind (expression_exactly hcond (by decide) h) fun rest₁ _ h₁ => ?_
  refine .bind (expect_exactly h₁) fun rest₂ _ h₂ => ?_
  refine .bind (expression_exactly hthen (by decide) h₂) fun rest₃ h₃ hleft => ?_
  obtain ⟨span, more, rfl, hmore⟩ := tokens_eq_cons hleft
  exact .bind (expression_exactly helse (by decide) hmore) fun left _ hleft => .pure hleft

/-- the loops are two expressions with a keyword between them -/
theorem readsBack_loops {first second : Expr} (hfirst : ReadsBack first) (hsecond : ReadsBack second) :
    ReadsBack (.whileDo first second) ∧ ReadsBack (.doWhile first second) ∧ ReadsBack (.loop first second) := by
  let parts (word : Keyword) := inParens first.body ++ .keyword word :: inParens second.body
  refine ⟨readsBack_of_form (f := .whileDo) (u := parts .doWord) rfl rfl fun ts w h => ?_,
    readsBack_of_form (f := .doWhile) (u := parts .whileWord) rfl rfl fun ts w h => ?_,
    readsBack_of_form (f := .loop) (u := parts .doWord) rfl rfl fun ts w h => ?_⟩
  all_goals
    rw [List.append_assoc] at h
    rw [form]
    refine .bind (expression_exactly hfirst (by decide) h) fun rest₁ _ h₁ => ?_
    refine .bind (expect_exactly h₁) fun rest₂ _ h₂ => ?_
    exact .bind (expression_exactly hsecond (by decide) h₂) fun left _ hleft => .pure hleft

theorem procedureLocals_exactly {v : List Token} (h : tokens ts = localsBody names ++ .mark .arrow :: v) :
    Exactly (procedureLocals ts) names (.mark .arrow :: v) := by
  cases names with
  | nil =>
    obtain ⟨span, rest, rfl, rfl⟩ := tokens_eq_cons h
    exact .pure rfl
  | cons x xs =>
    obtain ⟨span, rest, rfl, hrest⟩ := tokens_eq_cons h
    exact .bind (identifiers_exactly (by decide) hrest) fun left _ hleft => .pure hleft

theorem readsBack_proc {params locals : List String} (he : ReadsBack e) : ReadsBack (.proc params locals e) := by
  have hbody : (Expr.proc params locals e).body =
    .keyword .procWord :: (inParens (nameList params) ++ (localsBody locals ++ .mark .arrow :: inParens e.body)) := by
    simp [Expr.body]
  refine readsBack_of_form (f := .procedure) rfl hbody fun ts w h => ?_
  rw [List.append_assoc, List.append_assoc] at h
  rw [form]
  refine .bind (parameters_exactly h) fun rest₁ _ h₁ => ?_
  refine .bindContinued (procedureLocals_exactly h₁) fun rest₂ _ h₂ => ?_
  refine .bind (expect_exactly h₂) fun rest₃ _ h₃ => ?_
  exact .bind (expression_exactly he (by decide) h₃) fun left _ hleft => .pure hleft

theorem readsBack_seq {items : List Expr} (hitems : ∀ e ∈ items, ReadsBack e) (hlength : 2 ≤ items.length) :
    ReadsBack (.seq items) := by
  refine readsBack_of_items fun ts w h => ⟨items, ?_, items_exactly hitems (List.ne_nil_of_length_pos (by omega)) h⟩
  match items, hlength with
  | _ :: _ :: _, _ => rfl

/-- a well-formed expression is read back, by induction over its parts -/
theorem readsBack {e : Expr} (hwf : e.wellFormed) : ReadsBack e := by
  induction e using Expr.byParts with
  | step e ih =>
    obtain ⟨hnode, hparts⟩ := Expr.wellFormed_iff.1 hwf
    replace ih part hp := ih part hp (hparts part hp)
    cases e with
    | number value =>
      exact readsBack_of_token rfl (by simp) (by simp) fun ts w h => by
        obtain ⟨span, rest, rfl, rfl⟩ := tokens_eq_cons h
        rw [primary]
        exact .pure rfl
    | bool value =>
      cases value with
      | true | false =>
        refine readsBack_of_token rfl (by rintro _ ⟨⟩; rfl) (by decide) fun ts w h => ?_
        obtain ⟨span, rest, rfl, rfl⟩ := tokens_eq_cons h
        rw [primary]
        exact .pure rfl
    | var name =>
      exact readsBack_of_token rfl (by simp) (by simp) fun ts w h => by
        obtain ⟨span, rest, rfl, rfl⟩ := tokens_eq_cons h
        rw [primary]
        exact .pure rfl
    | unary op operand => exact readsBack_unary (ih operand (by simp [Expr.children]))
    | binary op lhs rhs =>
      exact readsBack_binary (ih lhs (by simp [Expr.children])) (ih rhs (by simp [Expr.children]))
    | assign name value => exact readsBack_assign (ih value (by simp [Expr.children]))
    | seq items => exact readsBack_seq ih (by simpa [Expr.wellFormedNode] using hnode)
    | ite cond thenBranch elseBranch =>
      have hcond := ih cond (by simp [Expr.children])
      have hthen := ih thenBranch (by simp [Expr.children])
      cases elseBranch with
      | none => exact readsBack_ifThen hcond hthen
      | some elseBranch => exact readsBack_ifThenElse hcond hthen (ih elseBranch (by simp [Expr.children]))
    | whileDo first second | doWhile first second | loop first second =>
      have hloops := readsBack_loops (ih first (by simp [Expr.children])) (ih second (by simp [Expr.children]))
      first | exact hloops.1 | exact hloops.2.1 | exact hloops.2.2
    | block bound e =>
      rw [Expr.wellFormedNode, Bool.and_eq_true, Bool.not_eq_true', List.isEmpty_eq_false_iff] at hnode
      have hbound b (hb : b ∈ bound) : ReadsBack b.2 :=
        ih b.2 (List.mem_cons_of_mem _ (List.mem_map_of_mem hb))
      exact readsBack_block hbound hnode.1 (ih e (List.mem_cons_self ..))
    | lambda params e => exact readsBack_lambda (ih e (by simp [Expr.children]))
    | proc params locals e => exact readsBack_proc (ih e (by simp [Expr.children]))
    | call callee args =>
      exact readsBack_call (ih callee (List.mem_cons_self ..)) fun e he => ih e (List.mem_cons_of_mem _ he)

end Parse

/-! ## Texts -/

namespace Expr

open Token

theorem writable_inParens {u : List Token} (hu : ∀ t ∈ u, t.Writable) : ∀ t ∈ inParens u, t.Writable := by
  simpa [inParens, Writable, or_imp, forall_and] using hu

theorem writable_intercalate (sep : Token) (hsep : sep.Writable) {us : List (List Token)}
    (hus : ∀ u ∈ us, ∀ t ∈ u, t.Writable) : ∀ t ∈ [sep].intercalate us, t.Writable := by
  match us with
  | [] => simp
  | [u] => simpa using hus
  | u :: v :: us =>
    rw [List.intercalate_cons_cons]
    rw [List.forall_mem_append, List.forall_mem_append, List.forall_mem_singleton]
    obtain ⟨hu, hlater⟩ := List.forall_mem_cons.1 hus
    exact ⟨⟨hu, hsep⟩, writable_intercalate sep hsep hlater⟩

theorem writable_nameList {names : List String} (h : ∀ x ∈ names, isName x) : ∀ t ∈ nameList names, t.Writable := by
  refine writable_intercalate (.mark .comma) trivial (List.forall_mem_map.2 fun x hx => ?_)
  exact List.forall_mem_singleton.2 (h x hx)

theorem writable_localsBody {names : List String} (h : ∀ x ∈ names, isName x) : ∀ t ∈ localsBody names, t.Writable := by
  cases names with
  | nil => exact List.forall_mem_nil _
  | cons x xs => exact List.forall_mem_cons.2 ⟨trivial, writable_nameList h⟩

/-- the tokens of a well-formed expression can be written, by induction over its parts -/
theorem writable_body {e : Expr} (hwf : e.wellFormed) : ∀ t ∈ e.body, t.Writable := by
  induction e using byParts with
  | step e ih =>
    obtain ⟨hnode, hparts⟩ := wellFormed_iff.1 hwf
    replace ih part hp := writable_inParens (ih part hp (hparts part hp))
    cases e with
    | number value =>
      have hvalue : 0 ≤ value := of_decide_eq_true hnode
      exact List.forall_mem_singleton.2 hvalue
    | bool value => cases value <;> exact List.forall_mem_singleton.2 trivial
    | var name => exact List.forall_mem_singleton.2 hnode
    | unary op operand =>
      exact List.forall_mem_cons.2 ⟨by cases op <;> trivial, ih operand (List.mem_singleton_self operand)⟩
    | binary op lhs rhs =>
      simp only [children, List.forall_mem_cons] at ih
      simp only [body, List.forall_mem_append, List.forall_mem_cons]
      exact ⟨ih.1, by cases op <;> trivial, ih.2.1⟩
    | assign name value =>
      simp only [body, List.forall_mem_cons]
      exact ⟨hnode, trivial, ih value (List.mem_singleton_self value)⟩
    | seq items =>
      rw [body, bodies_eq]
      exact writable_intercalate (.mark .semicolon) trivial (List.forall_mem_map.2 ih)
    | ite cond thenBranch elseBranch =>
      simp only [children, List.forall_mem_cons, Option.mem_toList] at ih
      simp only [body, List.cons_append, List.forall_mem_append, List.forall_mem_cons]
      refine ⟨trivial, ⟨ih.1, trivial, ih.2.1⟩, ?_⟩
      cases elseBranch with
      | none => exact List.forall_mem_nil _
      | some elseBranch => exact List.forall_mem_cons.2 ⟨trivial, ih.2.2 elseBranch rfl⟩
    | whileDo | doWhile | loop =>
      simp only [children, List.forall_mem_cons] at ih
      simp only [body, List.cons_append, List.forall_mem_append, List.forall_mem_cons]
      exact ⟨trivial, ih.1, trivial, ih.2.1⟩
    | block bindings e =>
      rw [wellFormedNode, Bool.and_eq_true, List.all_eq_true] at hnode
      simp only [children, List.forall_mem_cons, List.forall_mem_map] at ih
      simp only [body, List.cons_append, List.forall_mem_append, List.forall_mem_cons, bindingBodies_eq]
      have hbindings b (hb : b ∈ bindings) : ∀ t ∈ .ident b.1 :: .mark .assign :: inParens b.2.body, t.Writable :=
        List.forall_mem_cons.2 ⟨hnode.2 b hb, List.forall_mem_cons.2 ⟨trivial, ih.2 b hb⟩⟩
      exact ⟨trivial, writable_intercalate (.mark .comma) trivial (List.forall_mem_map.2 hbindings), trivial, ih.1⟩
    | lambda params e =>
      simp only [body, List.forall_mem_append, List.forall_mem_cons]
      exact ⟨writable_inParens (writable_nameList (List.all_eq_true.1 hnode)), trivial,
        ih e (List.mem_singleton_self e)⟩
    | proc params locals e =>
      rw [wellFormedNode, Bool.and_eq_true, List.all_eq_true, List.all_eq_true] at hnode
      simp only [body, List.cons_append, List.forall_mem_append, List.forall_mem_cons]
      exact ⟨trivial, ⟨writable_inParens (writable_nameList hnode.1), writable_localsBody hnode.2⟩, trivial,
        ih e (List.mem_singleton_self e)⟩
    | call callee args =>
      simp only [children, List.forall_mem_cons] at ih
      rw [body, bodies_eq, List.forall_mem_append]
      exact ⟨ih.1, writable_inParens (writable_intercalate (.mark .comma) trivial (List.forall_mem_map.2 ih.2))⟩

end Expr

/-- **Image.** The expressions that some text spells are the well-formed ones. -/
theorem exists_parse_iff_wellFormed (e : Expr) : (∃ text, Expr.parse text = .ok e) ↔ e.wellFormed := by
  constructor
  · rintro ⟨text, h⟩
    cases hscan : Token.scan text with
    | error error =>
      rw [Expr.parse, hscan] at h
      cases h
    | ok ts =>
      obtain ⟨body, hbody, hwritable⟩ := Token.tokens_scanFrom hscan
      obtain ⟨hitems⟩ := program_sound hbody (fun heof => hwritable _ heof) (Expr.parse_eq_program hscan ▸ h)
      exact Expr.wellFormed_ofItems hitems.ne_nil (sequence_wellFormed hitems hwritable)
  · intro hwf
    obtain ⟨ts, hscan, hts⟩ := Token.scanFrom_spell (Expr.writable_inParens (Expr.writable_body hwf)) .origin
    refine ⟨String.ofList (Token.spell (inParens e.body)), ?_⟩
    have hparse := Expr.parse_eq_program ((congrArg _ String.toList_ofList).trans hscan)
    refine hparse.trans (program_eq_ok_iff.2 ?_)
    obtain ⟨r, hr, hitems, hleft⟩ := item_exactly (expression_exactly (readsBack hwf) (by decide) hts) (by decide)
    exact ⟨r, hr, ⟨_, hleft⟩, by rw [hitems]; rfl⟩

end ThreeMachines
