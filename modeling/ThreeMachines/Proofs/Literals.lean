/-
The function literals of an expression, and what becomes of them in code.

A literal becomes a body out of line and, where it stands, code that packs what it captures and makes the function. The
generator goes through an expression in a fixed order and registers the body of a literal when it has come to its end, so
the bodies of the literals inside it come before.

- `Expr.literals`: the function literals of an expression in this order.
- `Tabled`: code and bodies that belong to a list of literals: the bodies are theirs one by one, each is made once, right
  after its captures have been packed, and nothing reaches past what there is.
- `Adds`: what a step of a generator adds to the draft is tabled. Steps are put together with `Adds.append`, and
  `Adds.function` is the literal itself.
-/
import ThreeMachines.Proofs.Depths
import ThreeMachines.Proofs.Expressions
import ThreeMachines.Proofs.Labels.Balance
import ThreeMachines.Proofs.Acceptance.Names

namespace ThreeMachines

/-! ## Literals -/

/-- a lambda, or a procedure with its local variables -/
structure FunctionLiteral where
  params : List String
  locals : List String
  body : Expr

/-- the names that the literal uses and does not bind, each once and in order -/
def FunctionLiteral.captures (f : FunctionLiteral) : List String := f.body.captures (f.params ++ f.locals)

namespace Expr

mutual

/-- the function literals in an expression, those inside a literal before it; the callee of a call comes before the
arguments or after them -/
def literals (calleeFirst : Bool) : Expr → List FunctionLiteral
  | number _ | bool _ | var _ => []
  | unary _ operand => operand.literals calleeFirst
  | binary _ lhs rhs => lhs.literals calleeFirst ++ rhs.literals calleeFirst
  | assign _ value => value.literals calleeFirst
  | seq items => listLiterals calleeFirst items
  | ite cond thenBranch elseBranch =>
    cond.literals calleeFirst ++ thenBranch.literals calleeFirst ++ optionLiterals calleeFirst elseBranch
  | whileDo cond body => cond.literals calleeFirst ++ body.literals calleeFirst
  | doWhile body cond => body.literals calleeFirst ++ cond.literals calleeFirst
  | loop count body => count.literals calleeFirst ++ body.literals calleeFirst
  | block bindings body => bindingLiterals calleeFirst bindings ++ body.literals calleeFirst
  | lambda params body => body.literals calleeFirst ++ [⟨params, [], body⟩]
  | proc params locals body => body.literals calleeFirst ++ [⟨params, locals, body⟩]
  | call callee args =>
    if calleeFirst then callee.literals calleeFirst ++ listLiterals calleeFirst args
    else listLiterals calleeFirst args ++ callee.literals calleeFirst

def listLiterals (calleeFirst : Bool) : List Expr → List FunctionLiteral
  | [] => []
  | e :: es => e.literals calleeFirst ++ listLiterals calleeFirst es

def optionLiterals (calleeFirst : Bool) : Option Expr → List FunctionLiteral
  | none => []
  | some e => e.literals calleeFirst

def bindingLiterals (calleeFirst : Bool) : List (String × Expr) → List FunctionLiteral
  | [] => []
  | (_, value) :: rest => value.literals calleeFirst ++ bindingLiterals calleeFirst rest

end

end Expr

theorem unbound_unbound (bound outer names : List String) :
    unbound outer (unbound bound names) = unbound (outer ++ bound) names := by
  rw [unbound, unbound, unbound, List.filter_filter]
  refine List.filter_congr fun x _ => ?_
  simp

namespace FunctionLiteral

theorem captures_plain (params : List String) (body : Expr) :
    (FunctionLiteral.mk params [] body).captures = body.captures params := by rw [captures, List.append_nil]

theorem captures_withLocals (params locals : List String) (body : Expr) :
    (FunctionLiteral.mk params locals body).captures = unbound params (unbound locals body.freeNames) :=
  (unbound_unbound locals params body.freeNames).symm

theorem pairwise_captures (f : FunctionLiteral) : f.captures.Pairwise (· < ·) := (pairwise_orderNames _).filter _

theorem mem_captures {f : FunctionLiteral} {x : String} :
    x ∈ f.captures ↔ x ∉ f.params ∧ x ∉ f.locals ∧ x ∈ f.body.uses := by
  rw [captures, Expr.mem_captures, List.mem_append, not_or, and_assoc]

end FunctionLiteral

/-! ## Code that makes functions -/

/-- the operations that make a function, and those that reach what it has captured or what it was given -/
class FunctionOps (ι : Type) where
  /-- pack so many words -/
  mkvec : Int → ι
  /-- make a function of the body with this label -/
  mkfunval : Label → ι
  /-- the label of the body, if a function is made -/
  made : ι → Option Label
  /-- the place in the vector of captures that is reached -/
  captured : ι → Option Int
  /-- the parameter that is reached -/
  formal : ι → Option Int
  made_iff {op : ι} {l : Label} : made op = some l ↔ op = mkfunval l
  mkvec_plain (n : Int) : made (mkvec n) = none ∧ captured (mkvec n) = none ∧ formal (mkvec n) = none
  mkfunval_plain (l : Label) : captured (mkfunval l) = none ∧ formal (mkfunval l) = none

section
variable {ι : Type} [FunctionOps ι]

namespace Instr

def made : Instr ι → Option Label
  | own op => FunctionOps.made op
  | _ => none

def captured : Instr ι → Option Int
  | own op => FunctionOps.captured op
  | _ => none

def formal : Instr ι → Option Int
  | own op => FunctionOps.formal op
  | _ => none

/-- the instruction reaches one of so many captures or parameters, if any -/
def Within (captures params : Nat) (i : Instr ι) : Prop :=
  (∀ k, i.captured = some k → 0 ≤ k ∧ k < captures) ∧ ∀ k, i.formal = some k → 0 ≤ k ∧ k < params

/-- the instruction has nothing to do with functions -/
def plain (i : Instr ι) : Bool := i.made.isNone && i.captured.isNone && i.formal.isNone

theorem made_iff {i : Instr ι} {l : Label} : i.made = some l ↔ i = .own (FunctionOps.mkfunval l) := by
  cases i <;> simp [made, FunctionOps.made_iff]

end Instr

/-- the labels of the functions that code makes -/
def madeIn (c : Code ι) : List Label := c.filterMap Instr.made

@[simp] theorem madeIn_append (c c' : Code ι) : madeIn (c ++ c') = madeIn c ++ madeIn c' := List.filterMap_append

/-- the captures of a function have been packed just before it is made, with one of the bodies -/
def Packed (bodies : List (LambdaBody ι)) (stream : Code ι) : Prop :=
  ∀ (i : Nat) (l : Label), stream[i]? = some (.own (FunctionOps.mkfunval l)) → ∃ j body, i = j + 1 ∧
    body ∈ bodies ∧ body.label = l ∧ stream[j]? = some (.own (FunctionOps.mkvec body.captures.length))

/-- code that makes no function, where there are so many captures and parameters -/
def Bare (captures params : Nat) (c : Code ι) : Prop := ∀ i ∈ c, i.made = none ∧ i.Within captures params

variable {captures params : Nat} {c c' : Code ι} {bodies bodies' : List (LambdaBody ι)}

theorem bare_of_plain (h : c.all Instr.plain) : Bare captures params c := by
  intro i hi
  have hplain := List.all_eq_true.1 h i hi
  simp only [Instr.plain, Bool.and_eq_true, Option.isNone_iff_eq_none] at hplain
  obtain ⟨⟨hmade, hcaptured⟩, hformal⟩ := hplain
  exact ⟨hmade, by simp [hcaptured], by simp [hformal]⟩

theorem Bare.append (h : Bare captures params c) (h' : Bare captures params c') : Bare captures params (c ++ c') :=
  List.forall_mem_append.2 ⟨h, h'⟩

theorem Bare.madeIn_eq (h : Bare captures params c) : madeIn c = [] :=
  List.filterMap_eq_nil_iff.2 fun i hi => (h i hi).1

theorem Bare.packed (h : Bare captures params c) : Packed bodies c := by
  intro i l hi
  have hmade := (h _ (List.mem_of_getElem? hi)).1
  rw [Instr.made_iff.2 rfl] at hmade
  cases hmade

theorem Packed.mono (h : Packed bodies c) (hb : bodies ⊆ bodies') : Packed bodies' c := by
  intro i l hi
  obtain ⟨j, body, hj, hbody, hl⟩ := h i l hi
  exact ⟨j, body, hj, hb hbody, hl⟩

theorem Packed.append (h : Packed bodies c) (h' : Packed bodies c') : Packed bodies (c ++ c') := by
  intro i l hi
  rcases Nat.lt_or_ge i c.length with hlt | hge
  · rw [List.getElem?_append_left hlt] at hi
    obtain ⟨j, body, rfl, hbody, hl, hj⟩ := h i l hi
    exact ⟨j, body, rfl, hbody, hl, by rwa [List.getElem?_append_left (by omega)]⟩
  · rw [List.getElem?_append_right hge] at hi
    obtain ⟨j, body, hij, hbody, hl, hj⟩ := h' _ l hi
    refine ⟨c.length + j, body, by omega, hbody, hl, ?_⟩
    rwa [List.getElem?_append_right (by omega), Nat.add_sub_cancel_left]

/-! ### The two instructions that make a function -/

theorem madeIn_closure (n : Int) (l : Label) :
    madeIn [.own (FunctionOps.mkvec n : ι), .own (FunctionOps.mkfunval l)] = [l] := by
  have hvec : (Instr.own (FunctionOps.mkvec n : ι)).made = none := (FunctionOps.mkvec_plain n).1
  have hfun : (Instr.own (FunctionOps.mkfunval l : ι)).made = some l := FunctionOps.made_iff.2 rfl
  simp [madeIn, hvec, hfun]

theorem within_closure (captures params : Nat) (n : Int) (l : Label) :
    ∀ i ∈ ([.own (FunctionOps.mkvec n), .own (FunctionOps.mkfunval l)] : Code ι), i.Within captures params := by
  obtain ⟨-, hvec, hvec'⟩ := FunctionOps.mkvec_plain (ι := ι) n
  obtain ⟨hfun, hfun'⟩ := FunctionOps.mkfunval_plain (ι := ι) l
  simp [Instr.Within, Instr.captured, Instr.formal, hvec, hvec', hfun, hfun']

theorem packed_closure {body : LambdaBody ι} (h : body ∈ bodies) :
    Packed bodies [.own (FunctionOps.mkvec body.captures.length), .own (FunctionOps.mkfunval body.label)] := by
  intro i l hi
  match i with
  | 0 =>
    obtain ⟨hvec, -⟩ := FunctionOps.mkvec_plain (ι := ι) body.captures.length
    simp only [List.getElem?_cons_zero, Option.some.injEq, Instr.own.injEq] at hi
    rw [hi, FunctionOps.made_iff.2 rfl] at hvec
    cases hvec
  | 1 =>
    simp only [List.getElem?_cons_succ, List.getElem?_cons_zero, Option.some.injEq, Instr.own.injEq] at hi
    have hlabel := FunctionOps.made_iff.2 hi
    rw [FunctionOps.made_iff.2 rfl] at hlabel
    exact ⟨0, body, rfl, h, Option.some.inj hlabel, rfl⟩
  | i + 2 => simp at hi

/-- what a body makes comes before it in the table -/
def InnerFirst (bodies : List (LambdaBody ι)) : Prop :=
  ∀ (i : Nat) (body : LambdaBody ι), bodies[i]? = some body → ∀ l ∈ madeIn body.code,
    ∃ (j : Nat) (inner : LambdaBody ι), j < i ∧ bodies[j]? = some inner ∧ inner.label = l

theorem InnerFirst.append (h : InnerFirst bodies) (h' : InnerFirst bodies') : InnerFirst (bodies ++ bodies') := by
  intro i body hi l hl
  rcases Nat.lt_or_ge i bodies.length with hlt | hge
  · rw [List.getElem?_append_left hlt] at hi
    obtain ⟨j, inner, hj, hinner, hlabel⟩ := h i body hi l hl
    exact ⟨j, inner, hj, by rwa [List.getElem?_append_left (hj.trans hlt)], hlabel⟩
  · rw [List.getElem?_append_right hge] at hi
    obtain ⟨j, inner, hj, hinner, hlabel⟩ := h' _ body hi l hl
    refine ⟨bodies.length + j, inner, by omega, ?_, hlabel⟩
    rwa [List.getElem?_append_right (Nat.le_add_right _ _), Nat.add_sub_cancel_left]

/-- a body that makes functions of those before it only -/
theorem InnerFirst.concat {body : LambdaBody ι} (h : InnerFirst bodies)
    (hmade : ∀ l ∈ madeIn body.code, l ∈ bodies.map LambdaBody.label) : InnerFirst (bodies ++ [body]) := by
  intro i other hi l hl
  rcases Nat.lt_or_ge i bodies.length with hlt | hge
  · rw [List.getElem?_append_left hlt] at hi
    obtain ⟨j, inner, hj, hinner, hlabel⟩ := h i other hi l hl
    exact ⟨j, inner, hj, by rwa [List.getElem?_append_left (hj.trans hlt)], hlabel⟩
  · rw [List.getElem?_append_right hge] at hi
    obtain rfl := List.mem_singleton.1 (List.mem_of_getElem? hi)
    obtain ⟨inner, hinner, hlabel⟩ := List.mem_map.1 (hmade l hl)
    obtain ⟨j, hj, rfl⟩ := List.getElem_of_mem hinner
    exact ⟨j, bodies[j], hj.trans_le hge, by rw [List.getElem?_append_left hj, List.getElem?_eq_getElem hj], hlabel⟩

/-- the body of a literal has its parameters and its captures, which are just the names that the literal does not bind,
in order -/
structure Renders (f : FunctionLiteral) (body : LambdaBody ι) : Prop where
  params : body.params = f.params
  captures : body.captures = f.captures
  free : ∀ x, x ∈ body.captures ↔ x ∉ f.params ∧ x ∉ f.locals ∧ x ∈ f.body.uses
  ordered : body.captures.Pairwise (· < ·)

/-- code, and bodies out of line, that belong to a list of literals -/
structure Tabled (captures params : Nat) (literals : List FunctionLiteral) (c : Code ι)
    (bodies : List (LambdaBody ι)) : Prop where
  renders : List.Forall₂ Renders literals bodies
  made : (madeIn c ++ madeIn (bodiesCode bodies)).Perm (bodies.map LambdaBody.label)
  innerFirst : InnerFirst bodies
  packed : Packed bodies c
  packedIn : ∀ body ∈ bodies, Packed bodies body.code
  within : ∀ i ∈ c, i.Within captures params
  withinBodies : ∀ body ∈ bodies, ∀ i ∈ body.code, i.Within body.captures.length body.params.length

namespace Tabled

variable {literals literals' : List FunctionLiteral}

theorem bare (h : Bare captures params c) : Tabled captures params [] c [] where
  renders := .nil
  made := by
    rw [h.madeIn_eq]
    exact .nil
  innerFirst := fun i body hi => by simp at hi
  packed := h.packed
  packedIn := by simp
  within i hi := (h i hi).2
  withinBodies := by simp

theorem append (h : Tabled captures params literals c bodies) (h' : Tabled captures params literals' c' bodies') :
    Tabled captures params (literals ++ literals') (c ++ c') (bodies ++ bodies') where
  renders := List.rel_append h.renders h'.renders
  made := by
    have hmade := h.made
    have hmade' := h'.made
    rw [List.perm_iff_count] at hmade hmade' ⊢
    intro l
    have h₁ := hmade l
    have h₂ := hmade' l
    simp only [bodiesCode, List.flatMap_append, madeIn_append, List.map_append, List.count_append] at h₁ h₂ ⊢
    omega
  innerFirst := h.innerFirst.append h'.innerFirst
  packed := (h.packed.mono (List.subset_append_left _ _)).append (h'.packed.mono (List.subset_append_right _ _))
  packedIn := List.forall_mem_append.2
    ⟨fun body hb => (h.packedIn body hb).mono (List.subset_append_left _ _),
      fun body hb => (h'.packedIn body hb).mono (List.subset_append_right _ _)⟩
  within := List.forall_mem_append.2 ⟨h.within, h'.within⟩
  withinBodies := List.forall_mem_append.2 ⟨h.withinBodies, h'.withinBodies⟩

/-- a literal: its body joins those inside it, and its code makes a function of it -/
theorem function {f : FunctionLiteral} {label : Label} {pushed bodyCode closing : Code ι}
    (h : Tabled f.captures.length f.params.length literals bodyCode bodies)
    (hclosing : Bare f.captures.length f.params.length closing) (hpushed : Bare captures params pushed) :
    Tabled captures params (literals ++ [f])
      (pushed ++ [.own (FunctionOps.mkvec f.captures.length), .own (FunctionOps.mkfunval label)])
      (bodies ++ [⟨label, f.params, f.captures, bodyCode ++ closing⟩]) where
  renders := List.rel_append h.renders (.cons ⟨rfl, rfl, fun _ => f.mem_captures, f.pairwise_captures⟩ .nil)
  made := by
    have hmade := h.made
    rw [List.perm_iff_count] at hmade ⊢
    intro l
    have hl := hmade l
    simp only [bodiesCode, List.flatMap_append, List.flatMap_singleton, madeIn_append, hpushed.madeIn_eq,
      hclosing.madeIn_eq, madeIn_closure, List.map_append, List.map_singleton, List.count_append, List.count_nil] at hl ⊢
    omega
  innerFirst := by
    refine h.innerFirst.concat fun l hl => h.made.subset (List.mem_append_left _ ?_)
    rwa [madeIn_append, hclosing.madeIn_eq, List.append_nil] at hl
  packed := hpushed.packed.append (packed_closure (List.mem_append_right _ (List.mem_singleton_self _)))
  packedIn := by
    have hold := List.subset_append_left bodies [⟨label, f.params, f.captures, bodyCode ++ closing⟩]
    refine List.forall_mem_append.2 ⟨fun body hb => (h.packedIn body hb).mono hold, List.forall_mem_singleton.2 ?_⟩
    exact (h.packed.mono hold).append hclosing.packed
  within := List.forall_mem_append.2 ⟨fun i hi => (hpushed i hi).2, within_closure _ _ _ _⟩
  withinBodies := List.forall_mem_append.2 ⟨h.withinBodies, List.forall_mem_singleton.2
    (List.forall_mem_append.2 ⟨h.within, fun i hi => (hclosing i hi).2⟩)⟩

end Tabled

/-! ## Steps of a generator -/

/-- a step with this code has added bodies, and both belong to the literals -/
structure Adds (captures params : Nat) (literals : List FunctionLiteral) (d : Draft ι) (c : Code ι) (d' : Draft ι) :
    Prop where
  later : d.Extends d'
  tabled : ∃ bodies, d'.lambdas.bodies = d.lambdas.bodies ++ bodies ∧ Tabled captures params literals c bodies

namespace Adds

variable {literals literals' literals'' : List FunctionLiteral} {d d₁ d₂ d' : Draft ι}

theorem bare (h : Bare captures params c) (d : Draft ι) : Adds captures params [] d c d :=
  ⟨.refl d, [], (List.append_nil _).symm, .bare h⟩

theorem append (h : Adds captures params literals d c d₁) (h' : Adds captures params literals' d₁ c' d') :
    Adds captures params (literals ++ literals') d (c ++ c') d' := by
  obtain ⟨bodies, hbodies, ht⟩ := h.tabled
  obtain ⟨bodies', hbodies', ht'⟩ := h'.tabled
  exact ⟨h.later.trans h'.later, bodies ++ bodies', by rw [hbodies', hbodies, List.append_assoc], ht.append ht'⟩

/-- code that makes no function goes before the code of a step -/
theorem before {first : Code ι} (h : Adds captures params literals d c d') (hfirst : Bare captures params first) :
    Adds captures params literals d (first ++ c) d' := (bare hfirst d).append h

/-- code that makes no function follows the code of a step -/
theorem after {last : Code ι} (h : Adds captures params literals d c d') (hlast : Bare captures params last) :
    Adds captures params literals d (c ++ last) d' := by
  have happend := h.append (bare hlast d')
  rwa [List.append_nil] at happend

/-- a step that adds no body comes first -/
theorem begun (h : Adds captures params literals d₁ c d') (hx : d.Extends d₁)
    (hbodies : d₁.lambdas.bodies = d.lambdas.bodies) : Adds captures params literals d c d' := by
  obtain ⟨bodies, hadded, ht⟩ := h.tabled
  exact ⟨hx.trans h.later, bodies, by rw [hadded, hbodies], ht⟩

theorem issued {labels : LabelAllocator} (h : Adds captures params literals (Gen.issued d labels) c d') :
    Adds captures params literals d c d' := h.begun (Gen.extends_issued d labels) rfl

/-- labels are issued in the end -/
theorem issuedLast (h : Adds captures params literals d c d') (labels : LabelAllocator) :
    Adds captures params literals d c (Gen.issued d' labels) :=
  ⟨h.later.trans (Gen.extends_issued d' labels), h.tabled⟩

theorem openScope {parent : Option ScopeId} {bindings : List Binding} {s : ScopeId}
    (hopen : Gen.openScope parent bindings d = .ok s d₁) (h : Adds captures params literals d₁ c d') :
    Adds captures params literals d c d' := by
  refine h.begun (Gen.extends_of_openScope hopen) ?_
  obtain ⟨-, -, rfl, -⟩ := Gen.openScope_ok hopen
  rfl

/-- a literal: its body is registered after those inside it -/
theorem function {f : FunctionLiteral} {label : Label} {pushed bodyCode closing : Code ι}
    (h : Adds f.captures.length f.params.length literals d bodyCode d₁)
    (hclosing : Bare f.captures.length f.params.length closing) (hpushed : Bare captures params pushed)
    (hregister : Gen.register ⟨label, f.params, f.captures, bodyCode ++ closing⟩ d₁ = .ok () d') :
    Adds captures params (literals ++ [f]) d
      (pushed ++ [.own (FunctionOps.mkvec f.captures.length), .own (FunctionOps.mkfunval label)]) d' := by
  obtain ⟨bodies, hbodies, ht⟩ := h.tabled
  refine ⟨h.later.trans (Gen.extends_of_register hregister).1, bodies ++ [_], ?_, ht.function hclosing hpushed⟩
  rw [Gen.register_ok hregister, hbodies, List.append_assoc]

/-! ### Skeletons -/

section
variable {start stop : Label} {neutral cond thenBranch elseBranch body count : Code ι}

theorem ifThenElse {thenLabel elseLabel : Label} (hc : Adds captures params literals d cond d₁)
    (ht : Adds captures params literals' d₁ thenBranch d₂) (he : Adds captures params literals'' d₂ elseBranch d') :
    Adds captures params (literals ++ literals' ++ literals'') d
      (Skeleton.ifThenElse start thenLabel elseLabel stop cond thenBranch elseBranch) d' :=
  (((((hc.before (bare_of_plain rfl)).after (bare_of_plain rfl)).append ht).after (bare_of_plain rfl)).append he).after
    (bare_of_plain rfl)

theorem whileDo (hn : Bare captures params neutral) (hc : Adds captures params literals d cond d₁)
    (hb : Adds captures params literals' d₁ body d') :
    Adds captures params (literals ++ literals') d (Skeleton.whileDo start stop neutral cond body) d' :=
  (((hc.before (hn.append (bare_of_plain rfl))).after (bare_of_plain rfl)).append hb).after (bare_of_plain rfl)

theorem doWhile (hb : Adds captures params literals d body d₁) (hc : Adds captures params literals' d₁ cond d') :
    Adds captures params (literals ++ literals') d (Skeleton.doWhile start stop body cond) d' :=
  ((hb.before (bare_of_plain rfl)).append hc).after (bare_of_plain rfl)

theorem countedLoop (hn : Bare captures params neutral) (hc : Adds captures params literals d count d₁)
    (hb : Adds captures params literals' d₁ body d') :
    Adds captures params (literals ++ literals') d (Skeleton.countedLoop start stop neutral count body) d' :=
  (((hc.before hn).after (bare_of_plain rfl)).append hb).after (bare_of_plain rfl)

end
end Adds
end

/-! ## Bindings -/

/-- a global or captured variable is one of so many -/
def Binding.Held (captures : Nat) (b : Binding) : Prop :=
  b.storage = .global ∨ b.storage = .captured → 0 ≤ b.address ∧ b.address < captures

/-- a variable of another kind is not held -/
theorem Binding.held_of_ne {captures : Nat} {b : Binding} (hglobal : b.storage ≠ .global)
    (hcaptured : b.storage ≠ .captured) : b.Held captures := fun h => h.elim (absurd · hglobal) (absurd · hcaptured)

end ThreeMachines
