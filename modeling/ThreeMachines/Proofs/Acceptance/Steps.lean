/-
When a step of a generator succeeds.

`Gen.Accepts s ρ x P`: where the scope `s` shows `ρ`, the step `x` succeeds if and only if `P` holds. Later steps of a
generator find what the ones before it left, so a success leaves a draft that has only been added to, and whose bodies
carry labels that were issued (`Draft.Sound`); then a body under a fresh label is never refused.

- `Accepts.bind`, `Accepts.lookup`, `Accepts.openScope`, ...: the condition of a step put together from its parts.
- `Accepts.literal`: a function body out of line.
- `exists_compile_iff`: compilation succeeds if generation does, since no label is out of order.
-/
import ThreeMachines.Proofs.Labels.Sessions
import ThreeMachines.Proofs.Registrations

namespace ThreeMachines

variable {ι α β : Type}

/-- the bodies carry labels that were issued -/
def Draft.Sound (d : Draft ι) : Prop :=
  ∀ body ∈ d.lambdas.bodies, ∃ kind n, body.label = .numbered kind n ∧ n < d.session.labels.count kind

namespace Gen

variable {d d' : Draft ι} {s : ScopeId} {ρ : Scope} {P Q : Prop}

/-! ## Scopes -/

/-- names that are not bound yet and different can be bound in the newest scope -/
theorem bindAll_newest {bindings : List Binding} (hnodup : (bindings.map Binding.name).Nodup) (d : Draft ι) (f : Frame)
    (older : List Frame) (hfree : ∀ b ∈ bindings, ∀ b', f.slots.lookup b.name ≠ some (.bound b')) :
    ∃ d', bindAll ⟨older.length⟩ bindings { d with scopes := ⟨f :: older⟩ } = .ok () d' := by
  induction bindings generalizing f with
  | nil => exact ⟨_, rfl⟩
  | cons b rest ih =>
    obtain ⟨hb, hrest⟩ := List.nodup_cons.1 hnodup
    have hown : ScopeTable.ownSlot? ⟨f :: older⟩ ⟨older.length⟩ b.name = f.slots.lookup b.name := by
      simp [ScopeTable.ownSlot?, ScopeTable.place]
    have hbind : ScopeTable.bind ⟨f :: older⟩ ⟨older.length⟩ b =
        .ok ⟨{ f with slots := (b.name, .bound b) :: f.slots } :: older⟩ := by
      rw [ScopeTable.bind, hown]
      split
      · rename_i existing hexisting
        exact absurd hexisting (hfree b List.mem_cons_self existing)
      · simp [ScopeTable.place]
    obtain ⟨d', hd'⟩ := ih hrest { f with slots := (b.name, .bound b) :: f.slots } fun b' hb' existing => by
      have hne : b'.name ≠ b.name := fun hname => hb (List.mem_map.2 ⟨b', hb', hname⟩)
      rw [List.lookup_cons, beq_false_of_ne hne]
      exact hfree b' (List.mem_cons_of_mem _ hb') existing
    refine ⟨d', ?_⟩
    rw [bindAll, get_bind]
    simp only [hbind, set_bind]
    exact hd'

/-- names that are only declared have no addresses -/
theorem lookup_declared_ne (names : List String) (x : String) (b : Binding) :
    (names.map fun name => (name, Slot.declared)).lookup x ≠ some (.bound b) := by
  intro h
  obtain ⟨before, after, hslots, -⟩ := List.lookup_eq_some_iff.1 h
  have hmem : (x, Slot.bound b) ∈ names.map fun name => (name, Slot.declared) := by
    rw [hslots]
    exact List.mem_append_right _ List.mem_cons_self
  simp at hmem

/-- a scope can be opened if its names are different -/
theorem exists_openScope (parent : Option ScopeId) {bindings : List Binding}
    (hnodup : (bindings.map Binding.name).Nodup) (d : Draft ι) :
    ∃ inner d', openScope parent bindings d = .ok inner d' := by
  obtain ⟨d', hd'⟩ := bindAll_newest hnodup d ⟨parent, _⟩ d.scopes.frames fun b _ => lookup_declared_ne _ b.name
  exact ⟨⟨d.scopes.frames.length⟩, d', bind_ok.2 ⟨_, _, get_ok.2 ⟨rfl, rfl⟩, bind_ok.2 ⟨⟨⟩, _, set_ok.2 rfl,
    bind_ok.2 ⟨(), d', hd', pure_ok.2 ⟨rfl, rfl⟩⟩⟩⟩⟩

/-! ## Bodies and their labels -/

section
variable {T : LambdaBody ι → Prop} {kind : String}

/-- issuing a label leaves the bodies with labels that were issued -/
theorem sound_issued (hd : d.Sound) (kind : String) : (issued d (d.session.labels.fresh kind).2).Sound := by
  intro body hbody
  obtain ⟨other, n, hl, hn⟩ := hd body hbody
  exact ⟨other, n, hl, hn.trans_le ((LabelAllocator.Issues.fresh _ kind).count_le other)⟩

/-- a body whose label no other body has can be registered -/
theorem exists_register {b : LambdaBody ι} (h : ∀ other ∈ d.lambdas.bodies, other.label ≠ b.label) :
    register b d = .ok () { d with lambdas := ⟨d.lambdas.bodies ++ [b]⟩ } := by
  have hnone : (d.lambdas.bodies.any fun other => other.label = b.label) = false :=
    List.any_eq_false.2 fun other ho => by simpa using h other ho
  rw [register, get_bind, LambdaTable.register, hnone]
  rfl

theorem count_lt_issued (d : Draft ι) (kind : String) :
    d.session.labels.count kind < (issued d (d.session.labels.fresh kind).2).session.labels.count kind := by
  rw [issued, LabelAllocator.count_fresh, if_pos rfl]
  exact Nat.lt_succ_self _

/-- a label that is issued before the code of a body is not taken when the code is there -/
theorem label_ne_of_balances [Operation ι] {x : Gen ι (Code ι)} {c : Code ι} {d₁ : Draft ι} (hx : Balances T [] [] x)
    (h : x d₁ = .ok c d') (hd : d.Sound) (hbodies : d₁.lambdas = d.lambdas)
    (hissued : d.session.labels.count kind < d₁.session.labels.count kind) :
    ∀ b ∈ d'.lambdas.bodies, b.label ≠ .numbered kind (d.session.labels.count kind) := by
  obtain ⟨ls, new, hls, hnew, -, hplaced, -⟩ := hx.ok h
  intro b hbody hlabel
  rw [hnew, hbodies] at hbody
  rcases List.mem_append.1 hbody with hbody | hbody
  · obtain ⟨other, n, hl, hn⟩ := hd b hbody
    obtain ⟨rfl, rfl⟩ := Label.numbered_inj.1 (hl.symm.trans hlabel)
    exact absurd hn (lt_irrefl _)
  · have hmem : b.label ∈ ls := by
      refine hplaced.subset (List.mem_append_right _ (List.mem_append_right _ ?_))
      exact List.mem_map_of_mem hbody
    obtain ⟨other, n, hl, hn, -⟩ := hls.mem_iff.1 hmem
    obtain ⟨rfl, rfl⟩ := Label.numbered_inj.1 (hl.symm.trans hlabel)
    exact absurd hissued (not_lt.2 hn)

/-- a body is registered under a label that had been issued before its code was generated -/
theorem sound_of_register [Operation ι] {x : Gen ι (Code ι)} {c : Code ι} {d'' : Draft ι} {b : LambdaBody ι} {n : Nat}
    (hx : Balances T [] [] x) (h : x d = .ok c d') (hd' : d'.Sound) (hissued : n < d.session.labels.count kind)
    (hlabel : b.label = .numbered kind n) (hr : register b d' = .ok () d'') : d''.Sound := by
  obtain ⟨ls, new, hls, -⟩ := hx.ok h
  rw [register_ok hr]
  refine List.forall_mem_append.2 ⟨hd', List.forall_mem_singleton.2 ⟨kind, n, hlabel, ?_⟩⟩
  exact hissued.trans_le (hls.count_le kind)

end

/-! ## The condition of a step -/

/-- a sound draft in which the scope shows `ρ` -/
structure Shows (d : Draft ι) (s : ScopeId) (ρ : Scope) : Prop where
  index : s.index < d.scopes.frames.length
  sees : d.scopes.sees s = ρ
  sound : d.Sound

theorem Shows.later (h : Shows d s ρ) (hx : d.Extends d') (hd : d'.Sound) : Shows d' s ρ := by
  refine ⟨?_, (hx.sees h.index).trans h.sees, hd⟩
  obtain ⟨newer, hframes⟩ := hx.frames
  rw [hframes, List.length_append]
  exact h.index.trans_le (Nat.le_add_left _ _)

/-- where the scope shows `ρ`, the step succeeds just under the condition; it adds to the draft -/
structure Accepts (s : ScopeId) (ρ : Scope) (x : Gen ι α) (P : Prop) : Prop where
  iff : ∀ ⦃d : Draft ι⦄, Shows d s ρ → ((∃ a d', x d = .ok a d') ↔ P)
  keeps : ∀ ⦃d : Draft ι⦄ ⦃a d'⦄, Shows d s ρ → x d = .ok a d' → d.Extends d' ∧ d'.Sound

namespace Accepts

theorem congr {x : Gen ι α} (hx : Accepts s ρ x P) (h : P ↔ Q) : Accepts s ρ x Q :=
  ⟨fun _ hd => (hx.iff hd).trans h, hx.keeps⟩

protected theorem pure (a : α) : Accepts s ρ (Pure.pure a : Gen ι α) True where
  iff d _ := ⟨fun _ => trivial, fun _ => ⟨a, d, rfl⟩⟩
  keeps d b d' hd h := by
    obtain ⟨-, rfl⟩ := pure_ok.1 h
    exact ⟨.refl d, hd.sound⟩

protected theorem throw (e : CompileError) : Accepts s ρ (throw e : Gen ι α) False where
  iff _ _ := ⟨fun ⟨_, _, h⟩ => throw_ok h, False.elim⟩
  keeps _ _ _ _ h := absurd h throw_ok

/-- the second step starts from what the first one leaves -/
protected theorem bind {x : Gen ι α} {f : α → Gen ι β} (hx : Accepts s ρ x P) (hf : ∀ a, Accepts s ρ (f a) Q) :
    Accepts s ρ (x >>= f) (P ∧ Q) where
  iff d hd := by
    have hnext {a d₁} (h₁ : x d = .ok a d₁) : (∃ b d', f a d₁ = .ok b d') ↔ Q := by
      obtain ⟨hext, hd₁⟩ := hx.keeps hd h₁
      exact (hf a).iff (hd.later hext hd₁)
    constructor
    · rintro ⟨b, d', h⟩
      obtain ⟨a, d₁, h₁, h₂⟩ := bind_ok.1 h
      exact ⟨(hx.iff hd).1 ⟨a, d₁, h₁⟩, (hnext h₁).1 ⟨b, d', h₂⟩⟩
    · rintro ⟨hP, hQ⟩
      obtain ⟨a, d₁, h₁⟩ := (hx.iff hd).2 hP
      obtain ⟨b, d', h₂⟩ := (hnext h₁).2 hQ
      exact ⟨b, d', bind_ok.2 ⟨a, d₁, h₁, h₂⟩⟩
  keeps d b d' hd h := by
    obtain ⟨a, d₁, h₁, h₂⟩ := bind_ok.1 h
    obtain ⟨hx₁, hd₁⟩ := hx.keeps hd h₁
    obtain ⟨hx₂, hd₂⟩ := (hf a).keeps (hd.later hx₁ hd₁) h₂
    exact ⟨hx₁.trans hx₂, hd₂⟩

/-- what is left to do can always be done -/
theorem map {x : Gen ι α} (hx : Accepts s ρ x P) (f : α → β) : Accepts s ρ (x >>= fun a => Pure.pure (f a)) P :=
  (hx.bind fun a => .pure (f a)).congr (and_iff_left trivial)

/-- a label is issued first -/
theorem fresh {kind : String} {f : Label → Gen ι β} (hf : ∀ l, Accepts s ρ (f l) P) :
    Accepts s ρ (Gen.fresh kind >>= f) P := by
  have hfresh : Accepts s ρ (Gen.fresh kind : Gen ι Label) True :=
    ⟨fun _ _ => ⟨fun _ => trivial, fun _ => ⟨_, _, rfl⟩⟩, fun d l d' hd h => by
      refine ⟨extends_of_fresh h, ?_⟩
      cases h
      exact sound_issued hd.sound kind⟩
  exact (hfresh.bind hf).congr (and_iff_right trivial)

/-- a step that only reads comes first; what it gives has a property -/
theorem reading {R : α → Prop} {x : Gen ι α} {f : α → Gen ι β}
    (hx : ∀ ⦃d : Draft ι⦄, Shows d s ρ → ((∃ a d', x d = .ok a d') ↔ P))
    (hR : ∀ ⦃d : Draft ι⦄ ⦃a d'⦄, Shows d s ρ → x d = .ok a d' → d' = d ∧ R a) (hf : ∀ a, R a → Accepts s ρ (f a) Q) :
    Accepts s ρ (x >>= f) (P ∧ Q) where
  iff d hd := by
    constructor
    · rintro ⟨b, d', h⟩
      obtain ⟨a, d₁, h₁, h₂⟩ := bind_ok.1 h
      obtain ⟨rfl, ha⟩ := hR hd h₁
      exact ⟨(hx hd).1 ⟨a, d₁, h₁⟩, ((hf a ha).iff hd).1 ⟨b, d', h₂⟩⟩
    · rintro ⟨hP, hQ⟩
      obtain ⟨a, d₁, h₁⟩ := (hx hd).2 hP
      obtain ⟨rfl, ha⟩ := hR hd h₁
      obtain ⟨b, d', h₂⟩ := ((hf a ha).iff hd).2 hQ
      exact ⟨b, d', bind_ok.2 ⟨a, d₁, h₁, h₂⟩⟩
  keeps d b d' hd h := by
    obtain ⟨a, d₁, h₁, h₂⟩ := bind_ok.1 h
    obtain ⟨rfl, ha⟩ := hR hd h₁
    exact (hf a ha).keeps hd h₂

/-- a name is looked up first; what comes next may depend on what the name stands for -/
theorem lookup {x : String} {f : Binding → Gen ι β} (hf : ∀ b, ρ x = some b → Accepts s ρ (f b) P) :
    Accepts s ρ (Gen.lookup s x >>= f) ((ρ x).isSome ∧ P) := by
  refine reading (R := fun b => ρ x = some b) (fun d hd => ?_) (fun d b d' hd h => ?_) hf
  · simp only [Gen.lookup_ok, hd.sees, Option.isSome_iff_exists]
    exact ⟨fun ⟨b, _, _, hb⟩ => ⟨b, hb⟩, fun ⟨b, hb⟩ => ⟨b, d, rfl, hb⟩⟩
  · rwa [Gen.lookup_ok, hd.sees] at h

/-- the draft after a scope has been opened -/
theorem shows_of_openScope {parent : Option ScopeId} {bindings : List Binding} {inner : ScopeId}
    (hd : d.Sound) (h : Gen.openScope parent bindings d = .ok inner d') :
    Shows d' inner ((parent.elim Scope.empty d.scopes.sees).extend bindings) := by
  obtain ⟨rfl, -, rfl, hsees⟩ := openScope_ok h
  exact ⟨Nat.lt_succ_self _, hsees, hd⟩

/-- a scope is opened first, and what comes next happens in it -/
theorem openScope {bindings : List Binding} {f : ScopeId → Gen ι β}
    (hf : ∀ inner, Accepts inner (ρ.extend bindings) (f inner) P) :
    Accepts s ρ (Gen.openScope (some s) bindings >>= f) ((bindings.map Binding.name).Nodup ∧ P) where
  iff d hd := by
    have hnext {inner d₁} (h₁ : Gen.openScope (some s) bindings d = .ok inner d₁) :
        (∃ b d', f inner d₁ = .ok b d') ↔ P := by
      have hd₁ := shows_of_openScope hd.sound h₁
      rw [Option.elim_some, hd.sees] at hd₁
      exact (hf inner).iff hd₁
    constructor
    · rintro ⟨b, d', h⟩
      obtain ⟨inner, d₁, h₁, h₂⟩ := bind_ok.1 h
      obtain ⟨-, hnodup, -⟩ := openScope_ok h₁
      exact ⟨hnodup, (hnext h₁).1 ⟨b, d', h₂⟩⟩
    · rintro ⟨hnodup, hP⟩
      obtain ⟨inner, d₁, h₁⟩ := exists_openScope (some s) hnodup d
      obtain ⟨b, d', h₂⟩ := (hnext h₁).2 hP
      exact ⟨b, d', bind_ok.2 ⟨inner, d₁, h₁, h₂⟩⟩
  keeps d b d' hd h := by
    obtain ⟨inner, d₁, h₁, h₂⟩ := bind_ok.1 h
    have hd₁ := shows_of_openScope hd.sound h₁
    rw [Option.elim_some, hd.sees] at hd₁
    obtain ⟨hx, hd'⟩ := (hf inner).keeps hd₁ h₂
    exact ⟨(extends_of_openScope h₁).trans hx, hd'⟩

/-! ## Skeletons -/

section
variable {R : Prop} {cond thenBranch elseBranch body count : Gen ι (Code ι)}

theorem ifThenElse (hc : Accepts s ρ cond P) (ht : Accepts s ρ thenBranch Q) (he : Accepts s ρ elseBranch R) :
    Accepts s ρ (Gen.ifThenElse cond thenBranch elseBranch) (P ∧ Q ∧ R) :=
  .fresh fun _ => .fresh fun _ => .fresh fun _ => .fresh fun _ => hc.bind fun _ => ht.bind fun _ => he.map _

theorem whileDo {neutral : Code ι} (hc : Accepts s ρ cond P) (hb : Accepts s ρ body Q) :
    Accepts s ρ (Gen.whileDo neutral cond body) (P ∧ Q) :=
  .fresh fun _ => .fresh fun _ => hc.bind fun _ => hb.map _

theorem doWhile (hb : Accepts s ρ body P) (hc : Accepts s ρ cond Q) : Accepts s ρ (Gen.doWhile body cond) (P ∧ Q) :=
  .fresh fun _ => .fresh fun _ => hb.bind fun _ => hc.map _

theorem countedLoop {neutral : Code ι} (hc : Accepts s ρ count P) (hb : Accepts s ρ body Q) :
    Accepts s ρ (Gen.countedLoop neutral count body) (P ∧ Q) :=
  .fresh fun _ => .fresh fun _ => hc.bind fun _ => hb.map _

end

/-! ## Function bodies -/

section
variable {T : LambdaBody ι → Prop} {kind : String} {bindings : List Binding} {body : ScopeId → Gen ι (Code ι)}
  {close : Label → Code ι → LambdaBody ι} {result : Label → Code ι}

/-- a function body out of line: it sees its own names only, and its label is issued before those inside it -/
theorem literal [Operation ι] (hclose : ∀ l c, (close l c).label = l) (hlabels : ∀ frame, Balances T [] [] (body frame))
    (hb : ∀ frame, Accepts frame (Scope.empty.extend bindings) (body frame) P) :
    Accepts s ρ (do
      let label ← Gen.fresh kind
      let frame ← Gen.openScope none bindings
      let c ← body frame
      Gen.register (close label c)
      return result label) ((bindings.map Binding.name).Nodup ∧ P) := by
  -- the draft in which the body is generated
  let begun (d : Draft ι) : Draft ι := issued d (d.session.labels.fresh kind).2
  have hinner {d d₂ : Draft ι} {frame} (hd : d.Sound) (h₂ : Gen.openScope none bindings (begun d) = .ok frame d₂) :
      Shows d₂ frame (Scope.empty.extend bindings) :=
    shows_of_openScope (sound_issued hd kind) h₂
  refine ⟨fun d hd => ⟨?_, ?_⟩, fun d a d' hd h => ?_⟩
  · rintro ⟨a, d', h⟩
    obtain ⟨label, d₁, h₁, h⟩ := bind_ok.1 h
    obtain ⟨frame, d₂, h₂, h⟩ := bind_ok.1 h
    obtain ⟨c, d₃, h₃, -⟩ := bind_ok.1 h
    cases h₁
    obtain ⟨-, hnodup, -⟩ := openScope_ok h₂
    exact ⟨hnodup, ((hb frame).iff (hinner hd.sound h₂)).1 ⟨c, d₃, h₃⟩⟩
  · rintro ⟨hnodup, hP⟩
    obtain ⟨frame, d₂, h₂⟩ := exists_openScope none hnodup (begun d)
    obtain ⟨c, d₃, h₃⟩ := ((hb frame).iff (hinner hd.sound h₂)).2 hP
    have h₄ := exists_register (b := close (.numbered kind (d.session.labels.count kind)) c) fun other ho => by
      obtain ⟨-, -, rfl, -⟩ := openScope_ok h₂
      rw [hclose]
      exact label_ne_of_balances (hlabels frame) h₃ hd.sound rfl (count_lt_issued d kind) other ho
    exact ⟨_, _, bind_ok.2 ⟨_, begun d, rfl, bind_ok.2 ⟨frame, d₂, h₂, bind_ok.2 ⟨c, d₃, h₃, bind_ok.2 ⟨(), _, h₄, rfl⟩⟩⟩⟩⟩
  · obtain ⟨label, d₁, h₁, h⟩ := bind_ok.1 h
    obtain ⟨frame, d₂, h₂, h⟩ := bind_ok.1 h
    obtain ⟨c, d₃, h₃, h⟩ := bind_ok.1 h
    obtain ⟨_, d₄, h₄, h⟩ := bind_ok.1 h
    obtain ⟨-, rfl⟩ := pure_ok.1 h
    cases h₁
    obtain ⟨hx₃, hd₃⟩ := (hb frame).keeps (hinner hd.sound h₂) h₃
    refine ⟨((extends_issued d _).trans (extends_of_openScope h₂)).trans (hx₃.trans (extends_of_register h₄).1), ?_⟩
    obtain ⟨-, -, rfl, -⟩ := openScope_ok h₂
    exact sound_of_register (hlabels frame) h₃ hd₃ (count_lt_issued d kind) (hclose _ _) h₄

end

end Accepts

/-! ## Programs -/

/-- the global names are bound first; they are different -/
theorem exists_program_iff {bindings : List Binding} {x : Gen ι (Code ι)} {f : Code ι → Draft ι → Program ι}
    (hnodup : (bindings.map Binding.name).Nodup) (hx : Accepts ScopeTable.global (Scope.empty.extend bindings) x P)
    (session : Session) :
    (∃ p d, (do
      bindAll ScopeTable.global bindings
      let c ← x
      let d ← get
      return f c d : Gen ι (Program ι)) ⟨session, .empty, .empty⟩ = .ok p d) ↔ P := by
  obtain ⟨d, hbind⟩ := bindAll_newest hnodup (⟨session, .empty, .empty⟩ : Draft ι) ⟨none, []⟩ [] fun _ _ _ => nofun
  have hshows : Shows d ScopeTable.global (Scope.empty.extend bindings) := by
    obtain ⟨hframes, -, hsees⟩ := bindGlobals_ok hbind
    refine ⟨by rw [hframes]; exact Nat.one_pos, hsees, fun body hbody => ?_⟩
    rw [bodies_of_bindGlobals hbind] at hbody
    exact absurd hbody List.not_mem_nil
  rw [← hx.iff hshows]
  constructor
  · rintro ⟨p, d', h⟩
    obtain ⟨_, d₁, h₁, h⟩ := bind_ok.1 h
    obtain ⟨c, d₂, h₂, -⟩ := bind_ok.1 h
    cases h₁.symm.trans hbind
    exact ⟨c, d₂, h₂⟩
  · rintro ⟨c, d₂, h₂⟩
    exact ⟨f c d₂, d₂, bind_ok.2 ⟨(), d, hbind, bind_ok.2 ⟨c, d₂, h₂, rfl⟩⟩⟩

end Gen

/-- the labels of a generated program are always in order, so compilation succeeds when generation does -/
theorem exists_compile_iff {m : Machine} {e : Expr} :
    (∃ p, compile m e = .ok p) ↔ ∃ p d, generate m e ⟨.new, .empty, .empty⟩ = .ok p d := by
  constructor
  · rintro ⟨p, h⟩
    obtain ⟨d, hgen, -⟩ := generate_of_compile h
    exact ⟨p, d, hgen⟩
  · rintro ⟨p, d, hgen⟩
    obtain ⟨ls, hls, hdefined, hnamed⟩ := (accounts_generate m e).ok rfl hgen
    have hcheck : p.checkLabels = .ok () := Program.checkLabels_ok (hdefined.nodup_iff.2 hls.nodup)
      fun l hl => hdefined.mem_iff.2 (hnamed l hl)
    refine ⟨p, ?_⟩
    simp only [compile, Gen.inSession, EStateM.run, hgen, hcheck, bind, Except.bind, pure, Except.pure]

end ThreeMachines
