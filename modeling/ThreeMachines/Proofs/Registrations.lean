/-
The function bodies that a generator registers.

`Gen.Registers image T x`: whatever the step `x` adds to the table of bodies has the property `T`, if the image holds the
bodies that are registered in the end. Only the code of function literals registers something; all other steps hand on
what their parts have registered (`Registers.bind`, and one lemma for each skeleton).
-/
import ThreeMachines.Proofs.Generation
import ThreeMachines.Proofs.Placement

namespace ThreeMachines.Gen

variable {ι α β : Type}

/-- new bodies have the property, if they get into the image -/
def Registers (image : Image ι) (T : LambdaBody ι → Prop) (x : Gen ι α) : Prop :=
  ∀ ⦃d a d'⦄, x d = .ok a d' → d.Extends d' ∧
    (image.Holds d'.lambdas.bodies → ∀ body ∈ d'.lambdas.bodies, body ∈ d.lambdas.bodies ∨ T body)

namespace Registers

variable {image : Image ι} {T : LambdaBody ι → Prop}

protected theorem pure (a : α) : Registers image T (Pure.pure a) := fun d b d' h => by
  obtain ⟨rfl, rfl⟩ := pure_ok.1 h
  exact ⟨.refl d, fun _ body hb => .inl hb⟩

protected theorem bind {x : Gen ι α} {f : α → Gen ι β} (hx : Registers image T x) (hf : ∀ a, Registers image T (f a)) :
    Registers image T (x >>= f) := fun d b d' h => by
  obtain ⟨a, d₁, h₁, h₂⟩ := bind_ok.1 h
  obtain ⟨hx₁, hT₁⟩ := hx h₁
  obtain ⟨hx₂, hT₂⟩ := hf a h₂
  refine ⟨hx₁.trans hx₂, fun hh body hb => ?_⟩
  rcases hT₂ hh body hb with hb | hT
  · exact hT₁ (fun body hb => hh body (hx₂.bodies hb)) body hb
  · exact .inr hT

protected theorem throw (e : CompileError) : Registers image T (throw e : Gen ι α) :=
  fun _ _ _ h => absurd h throw_ok

theorem fresh (kind : String) : Registers image T (fresh kind) := fun d l d' h => by
  obtain ⟨labels, rfl⟩ := fresh_ok h
  exact ⟨extends_issued d labels, fun _ body hb => .inl hb⟩

theorem lookup (s : ScopeId) (x : String) : Registers image T (lookup s x) := fun d b d' h => by
  obtain ⟨rfl, -⟩ := lookup_ok.1 h
  exact ⟨.refl d', fun _ body hb => .inl hb⟩

theorem openScope (parent : Option ScopeId) (bindings : List Binding) :
    Registers image T (openScope parent bindings) := fun d s d' h => by
  have hx := extends_of_openScope h
  obtain ⟨-, -, rfl, -⟩ := openScope_ok h
  exact ⟨hx, fun _ body hb => .inl hb⟩

/-! ## Skeletons -/

theorem ifThenElse {cond thenBranch elseBranch : Gen ι (Code ι)} (hc : Registers image T cond)
    (ht : Registers image T thenBranch) (he : Registers image T elseBranch) :
    Registers image T (ifThenElse cond thenBranch elseBranch) :=
  .bind (fresh _) fun _ => .bind (fresh _) fun _ => .bind (fresh _) fun _ => .bind (fresh _) fun _ =>
    .bind hc fun _ => .bind ht fun _ => .bind he fun _ => .pure _

theorem whileDo {neutral : Code ι} {cond body : Gen ι (Code ι)} (hc : Registers image T cond)
    (hb : Registers image T body) : Registers image T (whileDo neutral cond body) :=
  .bind (fresh _) fun _ => .bind (fresh _) fun _ => .bind hc fun _ => .bind hb fun _ => .pure _

theorem doWhile {body cond : Gen ι (Code ι)} (hb : Registers image T body) (hc : Registers image T cond) :
    Registers image T (doWhile body cond) :=
  .bind (fresh _) fun _ => .bind (fresh _) fun _ => .bind hb fun _ => .bind hc fun _ => .pure _

theorem countedLoop {neutral : Code ι} {count body : Gen ι (Code ι)} (hc : Registers image T count)
    (hb : Registers image T body) : Registers image T (countedLoop neutral count body) :=
  .bind (fresh _) fun _ => .bind (fresh _) fun _ => .bind hc fun _ => .bind hb fun _ => .pure _

end Registers

/-- a step that registers one body, after others -/
theorem registers_register {body : LambdaBody ι} {d d' : Draft ι} (h : register body d = .ok () d') :
    ∀ b ∈ d'.lambdas.bodies, b ∈ d.lambdas.bodies ∨ b = body := by
  rw [register_ok h]
  simp

/-- the names that are bound before all else come with no bodies -/
theorem bodies_of_bindGlobals {session : Session} {bindings : List Binding} {d : Draft ι}
    (h : bindAll ScopeTable.global bindings ⟨session, .empty, .empty⟩ = .ok () d) : d.lambdas.bodies = [] := by
  obtain ⟨rfl, -⟩ := bindAll_ok (d := ⟨session, .empty, .empty⟩) (f := ⟨none, []⟩) [] h
  rfl

end ThreeMachines.Gen
