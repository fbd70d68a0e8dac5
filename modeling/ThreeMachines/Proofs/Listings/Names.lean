/-
The names and the kinds of labels in a generated program.

A generator makes up no names: what it binds and what it hands over with a body stands in the expression, and the
expressions that a text spells have proper names only. Labels are issued of a few kinds (`Label.kinds`).
`Gen.KeepsNames` says both of a step; the rules put a step together from its parts.

- `Expr.isName_of_uses`, `Expr.isName_of_binders`: the names of a well-formed expression are names.
- `Gen.KeepsNames.bind`, `Gen.KeepsNames.fresh`, `Gen.KeepsNames.openScope`, ...: the rules.
-/
import ThreeMachines.Proofs.Labels.Balance
import ThreeMachines.Proofs.Occurrences
import ThreeMachines.Proofs.Parsing.WellFormed

namespace ThreeMachines

/-! ## Names of expressions -/

namespace Expr

variable {e : Expr} {x : String}

theorem isName_of_binders (h : e.wellFormed) (hx : x ∈ e.binders) : isName x := by
  obtain ⟨hnode, -⟩ := wellFormed_iff.1 h
  cases e with
  | block bindings body =>
    rw [wellFormedNode, Bool.and_eq_true, List.all_eq_true] at hnode
    obtain ⟨b, hb, rfl⟩ := List.mem_map.1 hx
    exact hnode.2 b hb
  | lambda params body => exact List.all_eq_true.1 hnode x hx
  | proc params locals body =>
    rw [wellFormedNode, Bool.and_eq_true, List.all_eq_true, List.all_eq_true] at hnode
    rcases List.mem_append.1 hx with hx | hx
    · exact hnode.1 x hx
    · exact hnode.2 x hx
  | _ => cases hx

theorem isName_of_uses (h : e.wellFormed) (hx : x ∈ e.uses) : isName x := by
  induction e using byParts with
  | step e ih =>
    obtain ⟨hnode, hparts⟩ := wellFormed_iff.1 h
    rcases mem_uses.1 hx with (rfl | ⟨value, rfl⟩) | ⟨-, part, hpart, hx⟩
    · exact hnode
    · exact hnode
    · exact ih part hpart (hparts part hpart) hx

theorem isName_of_freeNames (h : e.wellFormed) (hx : x ∈ e.freeNames) : isName x :=
  isName_of_uses h (mem_freeNames.1 hx)

theorem isName_of_captures {params : List String} (h : e.wellFormed) (hx : x ∈ e.captures params) : isName x :=
  isName_of_uses h (mem_captures.1 hx).2

end Expr

/-! ## Names of drafts -/

/-- what the frame has bound has a name -/
def Frame.Named (f : Frame) : Prop := ∀ x b, (x, Slot.bound b) ∈ f.slots → isName b.name

/-- what is bound has a name, and what a body was made with are names -/
structure Draft.Named {ι : Type} (d : Draft ι) : Prop where
  bound : ∀ f ∈ d.scopes.frames, f.Named
  bodies : ∀ body ∈ d.lambdas.bodies, (∀ x ∈ body.params, isName x) ∧ ∀ x ∈ body.captures, isName x

theorem ScopeTable.named_bind {t t' : ScopeTable} {s : ScopeId} {b : Binding} (h : ∀ f ∈ t.frames, f.Named)
    (hb : isName b.name) (hbind : t.bind s b = .ok t') : ∀ f ∈ t'.frames, f.Named := by
  unfold ScopeTable.bind at hbind
  split at hbind
  · cases hbind
  · cases hbind
    intro f hf
    obtain ⟨i, hi⟩ := List.mem_iff_getElem?.1 hf
    rw [List.getElem?_modify] at hi
    obtain ⟨old, hold, rfl⟩ := Option.map_eq_some_iff.1 hi
    have hold := h old (List.mem_of_getElem? hold)
    split
    · intro x b' hmem
      rcases List.mem_cons.1 hmem with hnew | hmem
      · cases hnew
        exact hb
      · exact hold x b' hmem
    · exact hold

theorem ScopeTable.named_resolveOrAllocate {t t' : ScopeTable} {s : ScopeId} {x : String} {b : Binding}
    {globals globals' : GlobalAllocator} (h : ∀ f ∈ t.frames, f.Named) (hx : isName x)
    (hresolve : t.resolveOrAllocate s x globals = .ok (b, t', globals')) : ∀ f ∈ t'.frames, f.Named := by
  unfold ScopeTable.resolveOrAllocate at hresolve
  split at hresolve
  · cases hlookup : t.lookup s x with
    | error e =>
      rw [hlookup] at hresolve
      cases hresolve
    | ok b' =>
      rw [hlookup] at hresolve
      cases hresolve
      exact h
  · cases hbind : t.bind (t.root s) ⟨x, .global, globals.next⟩ with
    | error e =>
      simp only [GlobalAllocator.allocate, hbind] at hresolve
      cases hresolve
    | ok t₁ =>
      simp only [GlobalAllocator.allocate, hbind] at hresolve
      cases hresolve
      exact named_bind h hx hbind

/-- nothing is bound yet when generation begins -/
theorem Draft.named_initial {ι : Type} (s : Session) : (⟨s, .empty, .empty⟩ : Draft ι).Named := by
  refine ⟨fun f hf x b hslot => ?_, List.forall_mem_nil _⟩
  rw [List.mem_singleton.1 hf] at hslot
  exact absurd hslot List.not_mem_nil

/-- the kinds of labels that are issued -/
def Label.kinds : List String :=
  ["if", "then", "else", "endif", "while", "endwhile", "dowhile", "enddowhile", "loop", "endloop", "proc", "endproc",
    "fun", "ret"]

namespace Gen

variable {ι α β : Type} {d d' : Draft ι}

/-- the step issues labels of known kinds only, and it brings in names only -/
def KeepsNames (x : Gen ι α) : Prop := ∀ ⦃d a d'⦄, x d = .ok a d' →
  (∀ kind ∉ Label.kinds, d'.session.labels.count kind = d.session.labels.count kind) ∧ (d.Named → d'.Named)

namespace KeepsNames

protected theorem pure (a : α) : KeepsNames (Pure.pure a : Gen ι α) := by
  intro d b d' h
  obtain ⟨-, rfl⟩ := pure_ok.1 h
  exact ⟨fun _ _ => rfl, id⟩

protected theorem throw (e : CompileError) : KeepsNames (throw e : Gen ι α) := by
  intro d b d' h
  exact absurd h throw_ok

/-- what is done next may count on what the step has found -/
theorem bind_of_ok {x : Gen ι α} {f : α → Gen ι β} (hx : KeepsNames x)
    (hf : ∀ ⦃d a d₁⦄, x d = .ok a d₁ → KeepsNames (f a)) : KeepsNames (x >>= f) := by
  intro d b d' h
  obtain ⟨a, d₁, h₁, h₂⟩ := bind_ok.1 h
  obtain ⟨hkinds₁, hnamed₁⟩ := hx h₁
  obtain ⟨hkinds₂, hnamed₂⟩ := hf h₁ h₂
  exact ⟨fun kind hkind => (hkinds₂ kind hkind).trans (hkinds₁ kind hkind), fun hd => hnamed₂ (hnamed₁ hd)⟩

protected theorem bind {x : Gen ι α} {f : α → Gen ι β} (hx : KeepsNames x) (hf : ∀ a, KeepsNames (f a)) :
    KeepsNames (x >>= f) :=
  hx.bind_of_ok fun _ a _ _ => hf a

/-- what is left to do is to put the result together -/
theorem map {x : Gen ι α} (hx : KeepsNames x) (f : α → β) : KeepsNames (x >>= fun a => Pure.pure (f a)) :=
  hx.bind fun a => .pure (f a)

/-- what is done may depend on the draft -/
theorem of_get {f : Draft ι → Gen ι α} (hf : ∀ d, KeepsNames (f d)) : KeepsNames (get >>= f) := by
  intro d a d' h
  exact hf d h

theorem fresh {kind : String} (hkind : kind ∈ Label.kinds) : KeepsNames (Gen.fresh kind : Gen ι Label) := by
  intro d l d' h
  cases h
  refine ⟨fun other hother => ?_, fun hd => ⟨hd.bound, hd.bodies⟩⟩
  have hne : other ≠ kind := by
    rintro rfl
    exact hother hkind
  exact (LabelAllocator.count_fresh d.session.labels kind other).trans (if_neg hne)

theorem lookup (s : ScopeId) (x : String) : KeepsNames (Gen.lookup s x : Gen ι Binding) := by
  intro d b d' h
  obtain ⟨rfl, -⟩ := lookup_ok.1 h
  exact ⟨fun _ _ => rfl, id⟩

theorem rootOf (s : ScopeId) : KeepsNames (Gen.rootOf s : Gen ι ScopeId) := by
  intro d root d' h
  cases h
  exact ⟨fun _ _ => rfl, id⟩

theorem resolveOrAllocate (s : ScopeId) {x : String} (hx : isName x) :
    KeepsNames (Gen.resolveOrAllocate s x : Gen ι Binding) := by
  intro d b d' h
  rw [Gen.resolveOrAllocate, get_bind] at h
  cases hresolve : d.scopes.resolveOrAllocate s x d.session.globals with
  | error e =>
    rw [hresolve] at h
    exact absurd h throw_ok
  | ok found =>
    obtain ⟨b', t, globals⟩ := found
    rw [hresolve] at h
    cases h
    exact ⟨fun _ _ => rfl, fun hd => ⟨ScopeTable.named_resolveOrAllocate hd.bound hx hresolve, hd.bodies⟩⟩

theorem bindAll (s : ScopeId) {bindings : List Binding} (h : ∀ x ∈ bindings.map Binding.name, isName x) :
    KeepsNames (Gen.bindAll s bindings : Gen ι Unit) := by
  induction bindings with
  | nil => exact .pure _
  | cons b rest ih =>
    rw [List.map_cons, List.forall_mem_cons] at h
    intro d u d' hrun
    rw [Gen.bindAll, get_bind] at hrun
    cases hbind : d.scopes.bind s b with
    | error e =>
      rw [hbind] at hrun
      exact absurd hrun throw_ok
    | ok t =>
      rw [hbind] at hrun
      obtain ⟨hkinds, hnamed⟩ := ih h.2 hrun
      exact ⟨hkinds, fun hd => hnamed ⟨ScopeTable.named_bind hd.bound h.1 hbind, hd.bodies⟩⟩

theorem openScope (parent : Option ScopeId) {bindings : List Binding} (h : ∀ x ∈ bindings.map Binding.name, isName x) :
    KeepsNames (Gen.openScope parent bindings : Gen ι ScopeId) := by
  intro d s d' hrun
  rw [Gen.openScope, get_bind] at hrun
  simp only [ScopeTable.push, set_bind] at hrun
  have hbind : KeepsNames (Gen.bindAll (ι := ι) ⟨d.scopes.frames.length⟩ bindings >>= fun _ =>
      Pure.pure (⟨d.scopes.frames.length⟩ : ScopeId)) := (bindAll _ h).map _
  obtain ⟨hkinds, hnamed⟩ := hbind hrun
  refine ⟨hkinds, fun hd => hnamed ⟨List.forall_mem_cons.2 ⟨fun x b hmem => ?_, hd.bound⟩, hd.bodies⟩⟩
  -- a new frame has declared its names and bound none
  obtain ⟨name, -, hslot⟩ := List.mem_map.1 hmem
  cases hslot

theorem register {body : LambdaBody ι} (hparams : ∀ x ∈ body.params, isName x)
    (hcaptures : ∀ x ∈ body.captures, isName x) : KeepsNames (Gen.register body) := by
  intro d u d' h
  rw [register_ok h]
  refine ⟨fun _ _ => rfl, fun hd => ⟨hd.bound, ?_⟩⟩
  exact List.forall_mem_append.2 ⟨hd.bodies, List.forall_mem_singleton.2 ⟨hparams, hcaptures⟩⟩

/-! ### Skeletons -/

section
variable {cond thenBranch elseBranch body count : Gen ι (Code ι)} {neutral : Code ι}

theorem ifThenElse (hc : KeepsNames cond) (ht : KeepsNames thenBranch) (he : KeepsNames elseBranch) :
    KeepsNames (Gen.ifThenElse cond thenBranch elseBranch) :=
  (fresh (by decide)).bind fun _ => (fresh (by decide)).bind fun _ => (fresh (by decide)).bind fun _ =>
    (fresh (by decide)).bind fun _ => hc.bind fun _ => ht.bind fun _ => he.map _

theorem whileDo (hc : KeepsNames cond) (hb : KeepsNames body) : KeepsNames (Gen.whileDo neutral cond body) :=
  (fresh (by decide)).bind fun _ => (fresh (by decide)).bind fun _ => hc.bind fun _ => hb.map _

theorem doWhile (hb : KeepsNames body) (hc : KeepsNames cond) : KeepsNames (Gen.doWhile body cond) :=
  (fresh (by decide)).bind fun _ => (fresh (by decide)).bind fun _ => hb.bind fun _ => hc.map _

theorem countedLoop (hc : KeepsNames count) (hb : KeepsNames body) : KeepsNames (Gen.countedLoop neutral count body) :=
  (fresh (by decide)).bind fun _ => (fresh (by decide)).bind fun _ => hc.bind fun _ => hb.map _

end

end KeepsNames

/-- the program comes with the globals of the global scope, and with no other bodies than were handed over -/
def Reports (x : Gen ι (Program ι)) : Prop := ∀ ⦃d p d'⦄, x d = .ok p d' →
  p.globals = d'.scopes.globals ∧ p.lambdas.bodies ⊆ d'.lambdas.bodies

end Gen

end ThreeMachines
