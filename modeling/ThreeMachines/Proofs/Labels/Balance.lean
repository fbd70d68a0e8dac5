/-
The labels of generated code, step by step.

A generator issues labels, places them in code or gives them to bodies, and names them in jumps. `Gen.Balances` is the
account of a step: with the labels `held` in hand, which were issued before it and have no place yet, it gives code and
registers bodies in which exactly these labels and those that the step issues are defined, each once, and which name only
labels that were `known` before and those that the step issues. Whatever comes of the step, it has only issued labels.

- `Balances.bind`, `Balances.fresh`, `Balances.register`, ...: the account of a step put together from its parts.
- `Balances.ifThenElse`, ...: the skeletons.
-/
import ThreeMachines.Proofs.Generation
import ThreeMachines.Proofs.Labels.Allocation

namespace ThreeMachines

variable {ι : Type}

/-- the labels that have their places in code -/
def definedIn (c : Code ι) : List Label := c.filterMap Instr.defines

/-- the labels that code names -/
def namedIn [Operation ι] (c : Code ι) : List Label := c.filterMap Instr.references

@[simp] theorem definedIn_nil : definedIn ([] : Code ι) = [] := rfl

@[simp] theorem definedIn_cons (i : Instr ι) (c : Code ι) : definedIn (i :: c) = i.defines.toList ++ definedIn c := by
  rw [definedIn, List.filterMap_cons]
  cases i.defines <;> rfl

@[simp] theorem definedIn_append (c c' : Code ι) : definedIn (c ++ c') = definedIn c ++ definedIn c' := List.filterMap_append

section
variable [Operation ι]

@[simp] theorem namedIn_nil : namedIn ([] : Code ι) = [] := rfl

@[simp] theorem namedIn_cons (i : Instr ι) (c : Code ι) : namedIn (i :: c) = i.references.toList ++ namedIn c := by
  rw [namedIn, List.filterMap_cons]
  cases i.references <;> rfl

@[simp] theorem namedIn_append (c c' : Code ι) : namedIn (c ++ c') = namedIn c ++ namedIn c' := List.filterMap_append

end

/-- code that neither places nor names a label -/
structure Unlabelled [Operation ι] (c : Code ι) : Prop where
  placed : definedIn c = []
  named : namedIn c = []

namespace Unlabelled

variable [Operation ι] {c c' : Code ι}

theorem nil : Unlabelled ([] : Code ι) := ⟨rfl, rfl⟩

protected theorem append (h : Unlabelled c) (h' : Unlabelled c') : Unlabelled (c ++ c') :=
  ⟨by rw [definedIn_append, h.placed, h'.placed, List.append_nil], by rw [namedIn_append, h.named, h'.named, List.append_nil]⟩

end Unlabelled

/-- the code of several bodies -/
def bodiesCode (bodies : List (LambdaBody ι)) : Code ι := bodies.flatMap LambdaBody.code

/-- the labels that code and bodies define -/
def definitionsOf (c : Code ι) (bodies : List (LambdaBody ι)) : List Label :=
  definedIn c ++ (definedIn (bodiesCode bodies) ++ bodies.map LambdaBody.label)

theorem definitions_eq (p : Program ι) : p.definitions = definedIn (p.code ++ bodiesCode p.lambdas.bodies) ++
    p.lambdas.bodies.map LambdaBody.label := rfl

theorem definitions_eq_definitionsOf (p : Program ι) : p.definitions = definitionsOf p.code p.lambdas.bodies := by
  rw [definitions_eq, definedIn_append, definitionsOf, List.append_assoc]

namespace Gen

variable {α β : Type}

/-- the draft that a step leaves, however it ends -/
def final : EStateM.Result CompileError (Draft ι) α → Draft ι
  | .ok _ d => d
  | .error _ d => d

theorem final_bind (x : Gen ι α) (f : α → Gen ι β) (d : Draft ι) : final ((x >>= f) d) =
    match x d with
    | .ok a d₁ => final (f a d₁)
    | .error _ d₁ => d₁ := by
  show final (EStateM.bind x f d) = _
  rw [EStateM.bind]
  cases x d <;> rfl

theorem get_bind (f : Draft ι → Gen ι β) (d : Draft ι) : (get >>= f) d = f d d := rfl

theorem set_bind (d' : Draft ι) (f : PUnit → Gen ι β) (d : Draft ι) : (set d' >>= f) d = f ⟨⟩ d' := rfl

/-! ## Steps without labels -/

/-- a draft with the labels and the bodies of another one -/
structure SameLabels (d d' : Draft ι) : Prop where
  labels : d'.session.labels = d.session.labels
  bodies : d'.lambdas.bodies = d.lambdas.bodies

theorem SameLabels.trans {d d' d'' : Draft ι} (h : SameLabels d d') (h' : SameLabels d' d'') : SameLabels d d'' :=
  ⟨h'.labels.trans h.labels, h'.bodies.trans h.bodies⟩

/-- a step that issues no label and registers no body; what it gives has a property -/
structure Quiet (Q : α → Prop) (x : Gen ι α) : Prop where
  same : ∀ d, SameLabels d (final (x d))
  gives : ∀ ⦃d a d'⦄, x d = .ok a d' → Q a

namespace Quiet

variable {Q : α → Prop} {R : β → Prop}

protected theorem pure {a : α} (h : Q a) : Quiet Q (Pure.pure a : Gen ι α) where
  same _ := ⟨rfl, rfl⟩
  gives d b d' hb := by
    obtain ⟨rfl, -⟩ := pure_ok.1 hb
    exact h

protected theorem bind {x : Gen ι α} {f : α → Gen ι β} (hx : Quiet Q x) (hf : ∀ a, Q a → Quiet R (f a)) :
    Quiet R (x >>= f) where
  same d := by
    have hsame := hx.same d
    rw [final_bind]
    cases hd : x d with
    | ok a d₁ =>
      rw [hd] at hsame
      exact hsame.trans ((hf a (hx.gives hd)).same d₁)
    | error e d₁ =>
      rw [hd] at hsame
      exact hsame
  gives d b d' h := by
    obtain ⟨a, d₁, h₁, h₂⟩ := bind_ok.1 h
    exact (hf a (hx.gives h₁)).gives h₂

protected theorem throw (e : CompileError) : Quiet Q (throw e : Gen ι α) where
  same _ := ⟨rfl, rfl⟩
  gives _ _ _ h := absurd h throw_ok

/-- a step that begins with a look at the draft -/
theorem of_get {f : Draft ι → Gen ι α} (h : ∀ d, SameLabels d (final (f d d)))
    (hQ : ∀ ⦃d a d'⦄, f d d = .ok a d' → Q a) : Quiet Q (get >>= f) :=
  ⟨h, fun _ _ _ ha => hQ ha⟩

theorem lookup (s : ScopeId) (x : String) : Quiet (fun _ => True) (lookup s x : Gen ι Binding) := by
  refine of_get (fun d => ?_) fun _ _ _ _ => trivial
  cases d.scopes.lookup s x <;> exact ⟨rfl, rfl⟩

theorem resolveOrAllocate (s : ScopeId) (x : String) :
    Quiet (fun _ => True) (resolveOrAllocate s x : Gen ι Binding) := by
  refine of_get (fun d => ?_) fun _ _ _ _ => trivial
  cases d.scopes.resolveOrAllocate s x d.session.globals <;> exact ⟨rfl, rfl⟩

theorem rootOf (s : ScopeId) : Quiet (fun _ => True) (rootOf s : Gen ι ScopeId) :=
  of_get (fun _ => ⟨rfl, rfl⟩) fun _ _ _ _ => trivial

theorem bindAll (s : ScopeId) (bindings : List Binding) : Quiet (fun _ => True) (bindAll s bindings : Gen ι Unit) := by
  induction bindings with
  | nil => exact .pure trivial
  | cons b rest ih =>
    refine of_get (fun d => ?_) fun _ _ _ _ => trivial
    cases d.scopes.bind s b with
    | error e => exact ⟨rfl, rfl⟩
    | ok scopes =>
      have hrest := ih.same { d with scopes }
      exact ⟨hrest.labels, hrest.bodies⟩

theorem openScope (parent : Option ScopeId) (bindings : List Binding) :
    Quiet (fun _ => True) (openScope parent bindings : Gen ι ScopeId) := by
  refine of_get (fun d => ?_) fun _ _ _ _ => trivial
  have hrest := ((bindAll (d.scopes.push parent (bindings.map Binding.name)).1 bindings).bind fun _ _ =>
    Quiet.pure (Q := fun _ => True) (a := (d.scopes.push parent (bindings.map Binding.name)).1) trivial).same
    { d with scopes := (d.scopes.push parent (bindings.map Binding.name)).2 }
  exact ⟨hrest.labels, hrest.bodies⟩

end Quiet

/-! ## The account of a step -/

variable [Operation ι]

/-- every label that was held or is issued gets its one place, and no other is named; new bodies have a property -/
structure Balances (T : LambdaBody ι → Prop) (held known : List Label) (x : Gen ι (Code ι)) : Prop where
  ok : ∀ ⦃d d' : Draft ι⦄ ⦃c : Code ι⦄, x d = .ok c d' → ∃ ls new, d.session.labels.Issues ls d'.session.labels ∧
    d'.lambdas.bodies = d.lambdas.bodies ++ new ∧ (∀ body ∈ new, T body) ∧
    (definitionsOf c new).Perm (held ++ ls) ∧ ∀ l ∈ namedIn c ++ namedIn (bodiesCode new), l ∈ known ++ ls
  issues : ∀ d : Draft ι, ∃ ls, d.session.labels.Issues ls (final (x d)).session.labels

namespace Balances

variable {T : LambdaBody ι → Prop} {held known : List Label} {c : Code ι}

protected theorem pure (hplaced : (definedIn c).Perm held) (hnamed : ∀ l ∈ namedIn c, l ∈ known) :
    Balances T held known (Pure.pure c) where
  ok d d' c' h := by
    obtain ⟨rfl, rfl⟩ := pure_ok.1 h
    exact ⟨[], [], .refl _, by simp, by simp, by simpa [definitionsOf, bodiesCode] using hplaced,
      by simpa [bodiesCode] using hnamed⟩
  issues _ := ⟨[], .refl _⟩

protected theorem throw (e : CompileError) : Balances T held known (throw e) where
  ok _ _ _ h := absurd h throw_ok
  issues _ := ⟨[], .refl _⟩

/-- a step without labels comes first -/
theorem quiet {Q : α → Prop} {x : Gen ι α} {f : α → Gen ι (Code ι)} (hx : Quiet Q x)
    (hf : ∀ a, Q a → Balances T held known (f a)) : Balances T held known (x >>= f) where
  ok d d' c h := by
    obtain ⟨a, d₁, h₁, h₂⟩ := bind_ok.1 h
    have hsame := hx.same d
    rw [h₁] at hsame
    obtain ⟨ls, new, hls, hnew, hbalance⟩ := (hf a (hx.gives h₁)).ok h₂
    refine ⟨ls, new, ?_, ?_, hbalance⟩
    · rwa [← hsame.labels]
    · rw [hnew, ← hsame.bodies]
      rfl
  issues d := by
    have hsame := hx.same d
    rw [final_bind]
    cases hd : x d with
    | ok a d₁ =>
      rw [hd] at hsame
      obtain ⟨ls, hls⟩ := (hf a (hx.gives hd)).issues d₁
      exact ⟨ls, by rwa [← hsame.labels]⟩
    | error e d₁ =>
      rw [hd] at hsame
      exact ⟨[], by
        rw [← hsame.labels]
        exact .refl _⟩

/-- a label is issued first -/
theorem fresh {kind : String} {f : Label → Gen ι (Code ι)}
    (hf : ∀ l, Balances T (held ++ [l]) (known ++ [l]) (f l)) : Balances T held known (Gen.fresh kind >>= f) where
  ok d d' c h := by
    obtain ⟨ls, new, hls, hnew, hT, hplaced, hnamed⟩ := (hf (d.session.labels.fresh kind).1).ok h
    refine ⟨_ :: ls, new, .trans (.fresh d.session.labels kind) hls, hnew, hT, ?_, ?_⟩
    · rwa [List.append_assoc, List.singleton_append] at hplaced
    · rwa [List.append_assoc, List.singleton_append] at hnamed
  issues d := by
    obtain ⟨ls, hls⟩ := (hf (d.session.labels.fresh kind).1).issues
      (issued d (d.session.labels.fresh kind).2)
    exact ⟨_ :: ls, .trans (.fresh d.session.labels kind) hls⟩

/-- a part comes first -/
protected theorem bind {x : Gen ι (Code ι)} {f : Code ι → Gen ι (Code ι)} (hx : Balances T [] [] x)
    (hf : ∀ c, Balances T (held ++ definedIn c) (known ++ (definedIn c ++ namedIn c)) (f c)) :
    Balances T held known (x >>= f) where
  ok d d' c h := by
    obtain ⟨part, d₁, h₁, h₂⟩ := bind_ok.1 h
    obtain ⟨ls₁, new₁, hls₁, hnew₁, hT₁, hplaced₁, hnamed₁⟩ := hx.ok h₁
    obtain ⟨ls₂, new₂, hls₂, hnew₂, hT₂, hplaced₂, hnamed₂⟩ := (hf part).ok h₂
    refine ⟨ls₁ ++ ls₂, new₁ ++ new₂, hls₁.trans hls₂, by rw [hnew₂, hnew₁, List.append_assoc], ?_, ?_, ?_⟩
    · intro body hb
      exact (List.mem_append.1 hb).elim (hT₁ body) (hT₂ body)
    · rw [List.perm_iff_count] at hplaced₁ hplaced₂ ⊢
      intro l
      have h₁ := hplaced₁ l
      have h₂ := hplaced₂ l
      simp only [definitionsOf, bodiesCode, List.flatMap_append, definedIn_append, List.map_append, List.count_append,
        List.nil_append] at h₁ h₂ ⊢
      omega
    · have hpart : ∀ l ∈ definedIn part, l ∈ ls₁ := fun l hl => by
        simpa using hplaced₁.subset (List.mem_append_left _ hl)
      intro l hl
      simp only [bodiesCode, List.flatMap_append, namedIn_append, List.mem_append] at hl hnamed₁ hnamed₂ ⊢
      rcases hl with hl | hl | hl
      · rcases hnamed₂ l (.inl hl) with (h | h | h) | h
        · exact .inl h
        · exact .inr (.inl (hpart l h))
        · exact .inr (.inl (by simpa using hnamed₁ l (.inl h)))
        · exact .inr (.inr h)
      · exact .inr (.inl (by simpa using hnamed₁ l (.inr hl)))
      · rcases hnamed₂ l (.inr hl) with (h | h | h) | h
        · exact .inl h
        · exact .inr (.inl (hpart l h))
        · exact .inr (.inl (by simpa using hnamed₁ l (.inl h)))
        · exact .inr (.inr h)
  issues d := by
    rw [final_bind]
    obtain ⟨ls₁, hls₁⟩ := hx.issues d
    cases hd : x d with
    | ok part d₁ =>
      rw [hd] at hls₁
      obtain ⟨ls₂, hls₂⟩ := (hf part).issues d₁
      exact ⟨ls₁ ++ ls₂, hls₁.trans hls₂⟩
    | error e d₁ =>
      rw [hd] at hls₁
      exact ⟨ls₁, hls₁⟩

/-- a body is registered first: its labels and its own have their places then -/
theorem register {body : LambdaBody ι} {f : Unit → Gen ι (Code ι)} (rest : List Label) (hT : T body)
    (hf : Balances T rest known (f ())) (hplaced : held.Perm (definedIn body.code ++ body.label :: rest))
    (hnamed : ∀ l ∈ namedIn body.code, l ∈ known) : Balances T held known (Gen.register body >>= f) where
  ok d d' c h := by
    obtain ⟨_, d₁, h₁, h₂⟩ := bind_ok.1 h
    obtain rfl := register_ok h₁
    obtain ⟨ls, new, hls, hnew, hT', hplaced', hnamed'⟩ := hf.ok h₂
    refine ⟨ls, body :: new, hls, ?_, ?_, ?_, ?_⟩
    · rw [hnew, List.append_assoc, List.singleton_append]
    · exact List.forall_mem_cons.2 ⟨hT, hT'⟩
    · rw [List.perm_iff_count] at hplaced hplaced' ⊢
      intro l
      have h₁ := hplaced l
      have h₂ := hplaced' l
      simp only [definitionsOf, bodiesCode, List.flatMap_cons, definedIn_append, List.map_cons, List.count_append,
        List.count_cons] at h₁ h₂ ⊢
      omega
    · intro l hl
      simp only [bodiesCode, List.flatMap_cons, namedIn_append, List.mem_append] at hl hnamed' ⊢
      rcases hl with hl | hl | hl
      · exact hnamed' l (.inl hl)
      · exact .inl (hnamed l hl)
      · exact hnamed' l (.inr hl)
  issues d := by
    rw [final_bind]
    cases hd : Gen.register body d with
    | ok a d₁ =>
      obtain rfl := register_ok hd
      exact hf.issues { d with lambdas := ⟨d.lambdas.bodies ++ [body]⟩ }
    | error e d₁ =>
      have hsame : d₁ = d := by
        rw [Gen.register, get_bind] at hd
        cases hr : d.lambdas.register body with
        | ok t =>
          rw [hr] at hd
          cases hd
        | error e' =>
          rw [hr] at hd
          cases hd
          rfl
      rw [hsame]
      exact ⟨[], .refl _⟩

/-! ## Skeletons -/

theorem ifThenElse {cond thenBranch elseBranch : Gen ι (Code ι)} (hc : Balances T [] [] cond)
    (ht : Balances T [] [] thenBranch) (he : Balances T [] [] elseBranch) :
    Balances T [] [] (Gen.ifThenElse cond thenBranch elseBranch) := by
  refine .fresh fun start => .fresh fun thenLabel => .fresh fun elseLabel => .fresh fun stop => .bind hc fun cc =>
    .bind ht fun tc => .bind he fun ec => .pure ?_ ?_
  · rw [List.perm_iff_count]
    intro l
    simp only [Skeleton.ifThenElse, definedIn_append, definedIn_cons, definedIn_nil, Instr.defines, Option.toList,
      List.count_append, List.count_nil, List.nil_append]
    omega
  · intro l
    simp only [Skeleton.ifThenElse, namedIn_append, namedIn_cons, namedIn_nil, Instr.references, Option.toList,
      List.mem_append, List.not_mem_nil]
    tauto

theorem whileDo {neutral : Code ι} (hn : Unlabelled neutral) {cond body : Gen ι (Code ι)} (hc : Balances T [] [] cond)
    (hb : Balances T [] [] body) : Balances T [] [] (Gen.whileDo neutral cond body) := by
  refine .fresh fun start => .fresh fun stop => .bind hc fun cc => .bind hb fun bc => .pure ?_ ?_
  · rw [List.perm_iff_count]
    intro l
    simp only [Skeleton.whileDo, definedIn_append, definedIn_cons, definedIn_nil, hn.placed, Instr.defines, Option.toList,
      List.count_append, List.count_nil, List.nil_append]
    omega
  · intro l
    simp only [Skeleton.whileDo, namedIn_append, namedIn_cons, namedIn_nil, hn.named, Instr.references, Option.toList,
      List.mem_append, List.not_mem_nil]
    tauto

theorem doWhile {body cond : Gen ι (Code ι)} (hb : Balances T [] [] body) (hc : Balances T [] [] cond) :
    Balances T [] [] (Gen.doWhile body cond) := by
  refine .fresh fun start => .fresh fun stop => .bind hb fun bc => .bind hc fun cc => .pure ?_ ?_
  · rw [List.perm_iff_count]
    intro l
    simp only [Skeleton.doWhile, definedIn_append, definedIn_cons, definedIn_nil, Instr.defines, Option.toList,
      List.count_append, List.count_nil, List.nil_append]
    omega
  · intro l
    simp only [Skeleton.doWhile, namedIn_append, namedIn_cons, namedIn_nil, Instr.references, Option.toList,
      List.mem_append, List.not_mem_nil]
    tauto

theorem countedLoop {neutral : Code ι} (hn : Unlabelled neutral) {count body : Gen ι (Code ι)}
    (hc : Balances T [] [] count) (hb : Balances T [] [] body) :
    Balances T [] [] (Gen.countedLoop neutral count body) := by
  refine .fresh fun start => .fresh fun stop => .bind hc fun cc => .bind hb fun bc => .pure ?_ ?_
  · rw [List.perm_iff_count]
    intro l
    simp only [Skeleton.countedLoop, definedIn_append, definedIn_cons, definedIn_nil, hn.placed, Instr.defines, Option.toList,
      List.count_append, List.count_nil, List.nil_append]
    omega
  · intro l
    simp only [Skeleton.countedLoop, namedIn_append, namedIn_cons, namedIn_nil, hn.named, Instr.references, Option.toList,
      List.mem_append, List.not_mem_nil]
    tauto

end Balances

/-! ## Programs -/

/-- a program that is begun without bodies defines the labels that are issued for it, and names no other -/
structure Accounts (x : Gen ι (Program ι)) : Prop where
  ok : ∀ ⦃d d' : Draft ι⦄ ⦃p : Program ι⦄, d.lambdas = .empty → x d = .ok p d' → ∃ ls,
    d.session.labels.Issues ls d'.session.labels ∧ p.definitions.Perm ls ∧ ∀ l ∈ namedIn p.instructions, l ∈ ls
  issues : ∀ d : Draft ι, ∃ ls, d.session.labels.Issues ls (final (x d)).session.labels

namespace Accounts

/-- a step without labels comes first -/
theorem quiet {Q : α → Prop} {x : Gen ι α} {f : α → Gen ι (Program ι)} (hx : Quiet Q x)
    (hf : ∀ a, Q a → Accounts (f a)) : Accounts (x >>= f) where
  ok d d' p hd h := by
    obtain ⟨a, d₁, h₁, h₂⟩ := bind_ok.1 h
    have hsame := hx.same d
    rw [h₁] at hsame
    have hd₁ : d₁.lambdas = .empty := by
      have hbodies : d₁.lambdas.bodies = d.lambdas.bodies := hsame.bodies
      rw [hd] at hbodies
      exact congrArg LambdaTable.mk hbodies
    obtain ⟨ls, hls, haccount⟩ := (hf a (hx.gives h₁)).ok hd₁ h₂
    exact ⟨ls, by rwa [← hsame.labels], haccount⟩
  issues d := by
    have hsame := hx.same d
    rw [final_bind]
    cases hd : x d with
    | ok a d₁ =>
      rw [hd] at hsame
      obtain ⟨ls, hls⟩ := (hf a (hx.gives hd)).issues d₁
      exact ⟨ls, by rwa [← hsame.labels]⟩
    | error e d₁ =>
      rw [hd] at hsame
      exact ⟨[], by
        rw [← hsame.labels]
        exact .refl _⟩

/-- the entry stream is code after a piece without labels, and the bodies are those that were registered -/
theorem of_balances {T : LambdaBody ι → Prop} {x : Gen ι (Code ι)} {f : Code ι → Draft ι → Program ι}
    (first : Code ι) (hx : Balances T [] [] x) (hfirst : Unlabelled first) (hcode : ∀ c d, (f c d).code = first ++ c)
    (hlambdas : ∀ c d, (∀ body ∈ d.lambdas.bodies, T body) → (f c d).lambdas = d.lambdas) :
    Accounts (x >>= fun c => get >>= fun d => Pure.pure (f c d)) where
  ok d d' p hd h := by
    obtain ⟨c, d₁, h₁, h₂⟩ := bind_ok.1 h
    rw [get_bind] at h₂
    obtain ⟨rfl, rfl⟩ := pure_ok.1 h₂
    obtain ⟨ls, new, hls, hnew, hT, hplaced, hnamed⟩ := hx.ok h₁
    have hbodies : d₁.lambdas.bodies = new := by
      rw [hnew, hd]
      rfl
    have htable : (f c d₁).lambdas = d₁.lambdas := hlambdas c d₁ (by rwa [hbodies])
    refine ⟨ls, hls, ?_, fun l hl => ?_⟩
    · rw [definitions_eq_definitionsOf, htable, hbodies, hcode, definitionsOf, definedIn_append, hfirst.placed]
      exact hplaced
    · have hcodes : (f c d₁).instructions = first ++ (c ++ bodiesCode new) := by
        rw [Program.instructions, hcode, htable, hbodies, List.append_assoc]
        rfl
      rw [hcodes, namedIn_append, hfirst.named, List.nil_append, namedIn_append] at hl
      simpa using hnamed l hl
  issues d := by
    obtain ⟨ls, hls⟩ := hx.issues d
    rw [final_bind]
    cases hd : x d with
    | ok c d₁ =>
      rw [hd] at hls
      exact ⟨ls, hls⟩
    | error e d₁ =>
      rw [hd] at hls
      exact ⟨ls, hls⟩

end Accounts
end Gen
end ThreeMachines
