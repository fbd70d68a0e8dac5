/-
How a step of a generator fails.

`Gen.Blames K E s x`: where all names of the tables have their addresses and the scope `s` is there (`Ready`), the step `x`
fails only with errors in `E`, and a success leaves all this as it should be. The rules put a step together from its
parts. The errors that come up are those of `Blame`:

- a name that stands for nothing, and what the machine does not offer;
- a name that one frame binds twice (`Expr.bindsTwice`), found when the frame is opened (`openScope_error`);
- a sequence without items.

A body under a fresh label is never refused (`Blames.literal`).
-/
import ThreeMachines.Proofs.Acceptance.Names
import ThreeMachines.Proofs.Acceptance.Steps
import ThreeMachines.Proofs.Failures.Tables

namespace ThreeMachines

namespace Expr

variable {m : Machine} {e part : Expr} {x : String}

/-- the names that a machine binds together, frame by frame: on the stack machine a procedure has one frame -/
def frames (m : Machine) : Expr → List (List String)
  | block bindings _ => [bindings.map Prod.fst]
  | lambda params _ => [params]
  | proc params locals _ => if m = .stack then [params ++ locals] else [params, locals]
  | _ => []

/-- somewhere in the expression, one frame binds the name twice -/
def bindsTwice (m : Machine) (x : String) (e : Expr) : Bool :=
  !e.everywhere fun part => (part.frames m).all fun names => decide (names.count x ≤ 1)

/-- a sequence has an item -/
def hasItems : Expr → Bool
  | seq items => !items.isEmpty
  | _ => true

theorem bindsTwice_of_frame {names : List String} (hnames : names ∈ e.frames m) (hx : 1 < names.count x) :
    e.bindsTwice m x := by
  rw [bindsTwice, Bool.not_eq_true', ← Bool.not_eq_true]
  intro h
  have hle := List.all_eq_true.1 (everywhere_self h) names hnames
  exact absurd hx (not_lt.2 (of_decide_eq_true hle))

theorem bindsTwice_of_child (hp : part ∈ e.children) (h : part.bindsTwice m x) : e.bindsTwice m x := by
  rw [bindsTwice, Bool.not_eq_true', ← Bool.not_eq_true] at h ⊢
  exact fun he => h (everywhere_child he hp)

end Expr

/-- names that are added to a frame because it does not bind them do not come twice -/
theorem count_of_append_unbound {bound names : List String} {x : String} (h : names.Nodup)
    (hx : 1 < (bound ++ unbound bound names).count x) : 1 < bound.count x := by
  rw [List.count_append] at hx
  have hle : (unbound bound names).count x ≤ 1 := List.nodup_iff_count_le_one.1 (nodup_unbound h) x
  by_cases hbound : x ∈ bound
  · have hzero : (unbound bound names).count x = 0 := List.count_eq_zero.2 fun hu => (mem_unbound.1 hu).1 hbound
    omega
  · have hzero : bound.count x = 0 := List.count_eq_zero.2 hbound
    omega

/-- why an expression has no program for a machine -/
inductive Blame (m : Machine) (e : Expr) : CompileError → Prop where
  | undefined (x : String) : Blame m e (.undefinedVariable x)
  | capturing (hm : m = .stack) {storage : Storage} (hs : storage ≠ .global) (x : String) :
    Blame m e (.unsupported (.capturing storage x) m)
  | assigning (hm : m = .closure) (x : String) : Blame m e (.unsupported (.assignmentToCaptured x) m)
  | repeated {x : String} (h : e.bindsTwice m x) (b : Binding) : Blame m e (.internal (.alreadyBound x b))
  | empty (h : ¬ e.everywhere Expr.hasItems) : Blame m e (.internal .emptySequence)

/-- what is wrong with a part is wrong with the whole -/
theorem Blame.of_child {m : Machine} {e part : Expr} {er : CompileError} (hp : part ∈ e.children) (h : Blame m part er) :
    Blame m e er := by
  cases h with
  | undefined x => exact .undefined x
  | capturing hm hs x => exact .capturing hm hs x
  | assigning hm x => exact .assigning hm x
  | repeated h b => exact .repeated (Expr.bindsTwice_of_child hp h) b
  | empty h => exact .empty fun he => h (Expr.everywhere_child he hp)

theorem Blame.of_nil {m : Machine} {items : List Expr} (h : items = []) :
    Blame m (.seq items) (.internal .emptySequence) := by
  subst h
  exact .empty (by decide)

variable {ι α β : Type}

namespace Gen

variable {K : Storage → Prop} {E E' : CompileError → Prop} {d d' : Draft ι} {s i : ScopeId} {er : CompileError}

theorem bind_error {x : Gen ι α} {f : α → Gen ι β} :
    (x >>= f) d = .error er d' ↔ x d = .error er d' ∨ ∃ a d₁, x d = .ok a d₁ ∧ f a d₁ = .error er d' := by
  show EStateM.bind x f d = _ ↔ _
  rw [EStateM.bind]
  cases x d with
  | ok a d₁ => simp
  | error e d₁ => simp

theorem throw_error {e : CompileError} (h : (throw e : Gen ι α) d = .error er d') : e = er := by
  cases h
  rfl

/-! ## Errors of single steps -/

/-- names are refused in the newest scope only for one that has an address there, or for one that comes twice -/
theorem bindAll_error {bindings : List Binding} {f : Frame} (older : List Frame)
    (h : bindAll ⟨older.length⟩ bindings { d with scopes := ⟨f :: older⟩ } = .error er d') :
    ∃ x b, er = .internal (.alreadyBound x b) ∧
      (f.slots.lookup x = some (.bound b) ∧ x ∈ bindings.map Binding.name ∨ 1 < (bindings.map Binding.name).count x) := by
  induction bindings generalizing f with
  | nil => cases h
  | cons b rest ih =>
    rw [bindAll, get_bind] at h
    cases hbind : ScopeTable.bind ⟨f :: older⟩ ⟨older.length⟩ b with
    | error e =>
      simp only [hbind] at h
      have hown : ScopeTable.ownSlot? ⟨f :: older⟩ ⟨older.length⟩ b.name = f.slots.lookup b.name := by
        simp [ScopeTable.ownSlot?, ScopeTable.place]
      rw [ScopeTable.bind, hown] at hbind
      split at hbind
      · rename_i existing hexisting
        cases hbind
        exact ⟨b.name, existing, (throw_error h).symm, .inl ⟨hexisting, List.mem_cons_self⟩⟩
      · cases hbind
    | ok t =>
      simp only [hbind, set_bind] at h
      obtain ⟨rfl, -⟩ := bind_newest hbind
      obtain ⟨x, b', her, ⟨hlookup, hx⟩ | hcount⟩ := ih h
      · refine ⟨x, b', her, ?_⟩
        by_cases hname : x = b.name
        · subst hname
          right
          rw [List.map_cons, List.count_cons_self]
          exact Nat.succ_lt_succ (List.count_pos_iff.2 hx)
        · rw [List.lookup_cons, beq_false_of_ne hname] at hlookup
          exact .inl ⟨hlookup, List.mem_cons_of_mem _ hx⟩
      · exact ⟨x, b', her, .inr (hcount.trans_le List.count_le_count_cons)⟩

/-- a scope cannot be opened only if a name comes twice -/
theorem openScope_error {parent : Option ScopeId} {bindings : List Binding}
    (h : openScope parent bindings d = .error er d') :
    ∃ x b, er = .internal (.alreadyBound x b) ∧ 1 < (bindings.map Binding.name).count x := by
  rw [openScope, get_bind] at h
  simp only [ScopeTable.push, set_bind] at h
  rcases bind_error.1 h with h | ⟨_, _, -, h⟩
  · obtain ⟨x, b, her, ⟨hlookup, -⟩ | hcount⟩ := bindAll_error d.scopes.frames h
    · exact absurd hlookup (lookup_declared_ne _ x b)
    · exact ⟨x, b, her, hcount⟩
  · cases h

/-! ## Steps -/

/-- all names have their addresses, the bodies carry labels that were issued, and the scope is there -/
structure Ready (K : Storage → Prop) (d : Draft ι) (s : ScopeId) : Prop where
  settled : d.scopes.Settled K
  sound : d.Sound
  index : s.index < d.scopes.frames.length

/-- the step fails with errors in `E` only; after it, the scopes that were there before are ready still -/
structure Blames (K : Storage → Prop) (E : CompileError → Prop) (s : ScopeId) (x : Gen ι α) : Prop where
  keeps : ∀ ⦃d : Draft ι⦄ ⦃a d'⦄, Ready K d s → x d = .ok a d' → ∀ i, Ready K d i → Ready K d' i
  error : ∀ ⦃d : Draft ι⦄ ⦃er d'⦄, Ready K d s → x d = .error er d' → E er

namespace Blames

theorem mono {x : Gen ι α} (h : Blames K E s x) (hE : ∀ er, E er → E' er) : Blames K E' s x :=
  ⟨h.keeps, fun _ er _ hd hx => hE er (h.error hd hx)⟩

protected theorem pure (a : α) : Blames K E s (Pure.pure a : Gen ι α) where
  keeps _ _ _ _ h i hi := by
    obtain ⟨-, rfl⟩ := pure_ok.1 h
    exact hi
  error _ _ _ _ h := by cases h

protected theorem throw {e : CompileError} (he : E e) : Blames K E s (throw e : Gen ι α) where
  keeps _ _ _ _ h := absurd h throw_ok
  error _ _ _ _ h := throw_error h ▸ he

/-- a step comes first; the next one starts in the scope `t a`, and `a` has the property `R` -/
theorem andThen {R : α → Prop} {t : α → ScopeId} {x : Gen ι α} {f : α → Gen ι β}
    (hx : ∀ ⦃d : Draft ι⦄, Ready K d s → match x d with
      | .ok a d' => R a ∧ Ready K d' (t a) ∧ ∀ i, Ready K d i → Ready K d' i
      | .error er _ => E er)
    (hf : ∀ a, R a → Blames K E (t a) (f a)) : Blames K E s (x >>= f) where
  keeps d b d' hd h i hi := by
    obtain ⟨a, d₁, h₁, h₂⟩ := bind_ok.1 h
    have hx := hx hd
    rw [h₁] at hx
    obtain ⟨ha, hd₁, hkeeps⟩ := hx
    exact (hf a ha).keeps hd₁ h₂ i (hkeeps i hi)
  error d er d' hd h := by
    have hx := hx hd
    rcases bind_error.1 h with h | ⟨a, d₁, h₁, h₂⟩
    · rwa [h] at hx
    · rw [h₁] at hx
      exact (hf a hx.1).error hx.2.1 h₂

protected theorem bind {x : Gen ι α} {f : α → Gen ι β} (hx : Blames K E s x) (hf : ∀ a, Blames K E s (f a)) :
    Blames K E s (x >>= f) := by
  refine andThen (R := fun _ => True) (t := fun _ => s) (fun d hd => ?_) fun a _ => hf a
  cases h : x d with
  | ok a d' => exact ⟨trivial, hx.keeps hd h s hd, hx.keeps hd h⟩
  | error er d' => exact hx.error hd h

/-- what is done may depend on the draft -/
theorem of_get {f : Draft ι → Gen ι α} (hf : ∀ d, Blames K E s (f d)) : Blames K E s (get >>= f) where
  keeps d _ _ hd h := (hf d).keeps hd h
  error d _ _ hd h := (hf d).error hd h

/-- what is left to do cannot fail -/
theorem map {x : Gen ι α} (hx : Blames K E s x) (f : α → β) : Blames K E s (x >>= fun a => Pure.pure (f a)) :=
  hx.bind fun a => .pure (f a)

theorem fresh (kind : String) : Blames K E s (Gen.fresh kind : Gen ι Label) where
  keeps d l d' _ h i hi := by
    cases h
    exact ⟨hi.settled, sound_issued hi.sound kind, hi.index⟩
  error d er d' _ h := by cases h

/-- a name is looked up first -/
theorem lookup {x : String} {f : Binding → Gen ι β} (hE : E (.undefinedVariable x))
    (hf : ∀ b, K b.storage → Blames K E s (f b)) : Blames K E s (Gen.lookup s x >>= f) := by
  refine andThen (t := fun _ => s) (fun d hd => ?_) hf
  rw [Gen.lookup, get_bind]
  rcases hd.settled.lookup hd.index x with ⟨b, hb, hstorage⟩ | ⟨-, hnone⟩
  · rw [hb]
    exact ⟨hstorage, hd, fun _ hi => hi⟩
  · rw [hnone]
    exact hE

/-- the target of an assignment is found or made first -/
theorem resolveOrAllocate {x : String} {f : Binding → Gen ι β} (hglobal : K .global)
    (hf : ∀ b, K b.storage → Blames K E s (f b)) : Blames K E s (Gen.resolveOrAllocate s x >>= f) := by
  refine andThen (t := fun _ => s) (fun d hd => ?_) hf
  obtain ⟨b, t, globals, hresolve, hstorage, ht, hlength⟩ :=
    hd.settled.resolveOrAllocate hglobal hd.index x d.session.globals
  rw [Gen.resolveOrAllocate, get_bind, hresolve]
  exact ⟨hstorage, ⟨ht, hd.sound, hd.index.trans_eq hlength.symm⟩,
    fun i hi => ⟨ht, hi.sound, hi.index.trans_eq hlength.symm⟩⟩

/-- the outermost scope is looked for first -/
theorem rootOf {f : ScopeId → Gen ι β} (hf : ∀ root, Blames K E root (f root)) : Blames K E s (Gen.rootOf s >>= f) :=
  andThen (R := fun _ => True) (t := id)
    (fun _ hd => ⟨trivial, ⟨hd.settled, hd.sound, hd.settled.root hd.index⟩, fun _ hi => hi⟩) fun root _ => hf root

/-! ### Scopes -/

section
variable {bindings : List Binding}

/-- an opened scope is ready, and so are the others -/
theorem ready_of_openScope {parent : Option ScopeId} {inner : ScopeId} (h : Gen.openScope parent bindings d = .ok inner d')
    (hparent : ∀ p, parent = some p → p.index < d.scopes.frames.length) (hK : ∀ b ∈ bindings, K b.storage)
    (hi : Ready K d i) :
    Ready K d' inner ∧ Ready K d' i := by
  obtain ⟨rfl, hnodup, rfl, -⟩ := openScope_ok h
  have ht := hi.settled.cons hparent hnodup hK
  exact ⟨⟨ht, hi.sound, Nat.lt_succ_self _⟩, ht, hi.sound, hi.index.trans (Nat.lt_succ_self _)⟩

/-- a scope is opened inside first, and what comes next happens in it -/
theorem openScope {f : ScopeId → Gen ι β} (hK : ∀ b ∈ bindings, K b.storage)
    (hE : ∀ x b, 1 < (bindings.map Binding.name).count x → E (.internal (.alreadyBound x b)))
    (hf : ∀ inner, Blames K E inner (f inner)) : Blames K E s (Gen.openScope (some s) bindings >>= f) := by
  refine andThen (R := fun _ => True) (t := id) (fun d hd => ?_) fun inner _ => hf inner
  have hparent (p : ScopeId) (hp : some s = some p) : p.index < d.scopes.frames.length :=
    Option.some.inj hp ▸ hd.index
  cases h : Gen.openScope (some s) bindings d with
  | ok inner d' =>
    exact ⟨trivial, (ready_of_openScope h hparent hK hd).1, fun i hi => (ready_of_openScope h hparent hK hi).2⟩
  | error er d' =>
    obtain ⟨x, b, rfl, hcount⟩ := openScope_error h
    exact hE x b hcount

end

/-! ### Skeletons -/

section
variable {cond thenBranch elseBranch body count : Gen ι (Code ι)} {neutral : Code ι}

theorem ifThenElse (hc : Blames K E s cond) (ht : Blames K E s thenBranch) (he : Blames K E s elseBranch) :
    Blames K E s (Gen.ifThenElse cond thenBranch elseBranch) :=
  (fresh _).bind fun _ => (fresh _).bind fun _ => (fresh _).bind fun _ => (fresh _).bind fun _ =>
    hc.bind fun _ => ht.bind fun _ => he.map _

theorem whileDo (hc : Blames K E s cond) (hb : Blames K E s body) : Blames K E s (Gen.whileDo neutral cond body) :=
  (fresh _).bind fun _ => (fresh _).bind fun _ => hc.bind fun _ => hb.map _

theorem doWhile (hb : Blames K E s body) (hc : Blames K E s cond) : Blames K E s (Gen.doWhile body cond) :=
  (fresh _).bind fun _ => (fresh _).bind fun _ => hb.bind fun _ => hc.map _

theorem countedLoop (hc : Blames K E s count) (hb : Blames K E s body) :
    Blames K E s (Gen.countedLoop neutral count body) :=
  (fresh _).bind fun _ => (fresh _).bind fun _ => hc.bind fun _ => hb.map _

end

/-! ### Function bodies -/

/-- a function body out of line: its label is fresh, so the body is never refused -/
theorem literal [Operation ι] {T : LambdaBody ι → Prop} {kind : String} {bindings : List Binding}
    {body : ScopeId → Gen ι (Code ι)} {close : Label → Code ι → LambdaBody ι} {result : Label → Code ι}
    (hclose : ∀ l c, (close l c).label = l) (hlabels : ∀ frame, Balances T [] [] (body frame))
    (hK : ∀ b ∈ bindings, K b.storage)
    (hE : ∀ x b, 1 < (bindings.map Binding.name).count x → E (.internal (.alreadyBound x b)))
    (hb : ∀ frame, Blames K E frame (body frame)) : Blames K E s (do
      let label ← Gen.fresh kind
      let frame ← Gen.openScope none bindings
      let c ← body frame
      Gen.register (close label c)
      return result label) := by
  have hissued {d : Draft ι} {i : ScopeId} (hi : Ready K d i) : Ready K (issued d (d.session.labels.fresh kind).2) i :=
    ⟨hi.settled, sound_issued hi.sound kind, hi.index⟩
  refine ⟨fun d a d' hd h i hi => ?_, fun d er d' hd h => ?_⟩
  · obtain ⟨label, d₁, h₁, h⟩ := bind_ok.1 h
    obtain ⟨frame, d₂, h₂, h⟩ := bind_ok.1 h
    obtain ⟨c, d₃, h₃, h⟩ := bind_ok.1 h
    obtain ⟨_, d₄, h₄, h⟩ := bind_ok.1 h
    obtain ⟨-, rfl⟩ := pure_ok.1 h
    cases h₁
    obtain ⟨hframe, hi₂⟩ := ready_of_openScope h₂ nofun hK (hissued hi)
    have hi₃ := (hb frame).keeps hframe h₃ i hi₂
    obtain ⟨-, -, rfl, -⟩ := openScope_ok h₂
    have hsound := sound_of_register (hlabels frame) h₃ hi₃.sound (count_lt_issued d kind) (hclose _ _) h₄
    rw [register_ok h₄] at hsound ⊢
    exact ⟨hi₃.settled, hsound, hi₃.index⟩
  · rcases bind_error.1 h with h | ⟨label, d₁, h₁, h⟩
    · cases h
    cases h₁
    rcases bind_error.1 h with h | ⟨frame, d₂, h₂, h⟩
    · obtain ⟨x, b, rfl, hcount⟩ := openScope_error h
      exact hE x b hcount
    obtain ⟨hframe, -⟩ := ready_of_openScope h₂ nofun hK (hissued hd)
    rcases bind_error.1 h with h | ⟨c, d₃, h₃, h⟩
    · exact (hb frame).error hframe h
    -- the label was issued here and for this body, so it is not taken
    have hregister := exists_register (b := close (.numbered kind (d.session.labels.count kind)) c) fun other ho => by
      obtain ⟨-, -, rfl, -⟩ := openScope_ok h₂
      rw [hclose]
      exact label_ne_of_balances (hlabels frame) h₃ hd.sound rfl (count_lt_issued d kind) other ho
    rcases bind_error.1 h with h | ⟨_, d₄, -, h⟩
    · cases hregister.symm.trans h
    · cases h

end Blames

/-! ## Programs -/

/-- the table stays settled while names are bound -/
theorem ready_of_bindAll {bindings : List Binding} (hd : Ready K d s) (hK : ∀ b ∈ bindings, K b.storage)
    (h : bindAll s bindings d = .ok () d') : Ready K d' s := by
  induction bindings generalizing d with
  | nil =>
    obtain ⟨-, rfl⟩ := pure_ok.1 h
    exact hd
  | cons b rest ih =>
    rw [bindAll, get_bind] at h
    cases hbind : d.scopes.bind s b with
    | error e =>
      simp only [hbind] at h
      exact absurd h throw_ok
    | ok t =>
      simp only [hbind, set_bind] at h
      obtain ⟨hb, hrest⟩ := List.forall_mem_cons.1 hK
      have hlength := ScopeTable.length_bind hd.index hbind
      exact ih (d := { d with scopes := t })
        ⟨hd.settled.bind hd.index hb hbind, hd.sound, hd.index.trans_eq hlength.symm⟩ hrest h

theorem ready_start (session : Session) : Ready K (⟨session, .empty, .empty⟩ : Draft ι) ScopeTable.global :=
  ⟨ScopeTable.settled_empty, fun _ hbody => absurd hbody List.not_mem_nil, Nat.one_pos⟩

/-- the global names are bound first; they are different, so this does not fail -/
theorem error_program {bindings : List Binding} {x : Gen ι (Code ι)} {f : Code ι → Draft ι → Program ι}
    (hnodup : (bindings.map Binding.name).Nodup) (hK : ∀ b ∈ bindings, K b.storage)
    (hx : Blames K E ScopeTable.global x) {session : Session} (h : (do
      bindAll ScopeTable.global bindings
      let c ← x
      let d ← get
      return f c d : Gen ι (Program ι)) ⟨session, .empty, .empty⟩ = .error er d') : E er := by
  obtain ⟨d₁, hbind⟩ := bindAll_newest hnodup (⟨session, .empty, .empty⟩ : Draft ι) ⟨none, []⟩ [] fun _ _ _ => nofun
  rcases bind_error.1 h with h | ⟨_, d₂, h₁, h⟩
  · cases hbind.symm.trans h
  cases hbind.symm.trans h₁
  rcases bind_error.1 h with h | ⟨c, d₃, -, h⟩
  · exact hx.error (ready_of_bindAll (ready_start session) hK hbind) h
  · cases h

end Gen
end ThreeMachines
