/-
The code skeletons of `if`, of the loops and of sequences, on any machine.

Given that the code of the parts follows their evaluation, the skeleton follows the evaluation of the whole. A loop is
followed pass by pass, from its label back to its label; a run that the fuel cuts off has passed the label once for every
pass that the fuel allowed.

- `computes_ifThenElse`, `computes_whileDo`, `computes_doWhile`, `computes_countedLoop`: one for each skeleton.
-/
import ThreeMachines.Code.Generator
import ThreeMachines.Proofs.Simulation
import ThreeMachines.Proofs.Words

namespace ThreeMachines

namespace Setting

variable {ι ρ : Type} [Runnable ι ρ] {S : Setting ρ} {image : Image ι} {k : Nat} {w : S.World}
variable {good : Int → Prop} {P : S.World → Value → Int → Prop} {x : Eval Int} {y z : Eval Value}

/-! ## Branches -/

/-- **Branches.** One of two branches is taken, as the condition says. -/
theorem computes_ifThenElse {R : S.World → Value → List Int → Prop} {start thenLabel elseLabel stop : Label}
    {cond thenBranch elseBranch : Code ι} (hl : image.WellLabelled)
    (hcond : S.Computes image k w [] cond x (S.Number good))
    (hthen : ∀ w', S.Leads w w' → S.Computes image k w' [] thenBranch y R)
    (helse : ∀ w', S.Leads w w' → S.Computes image k w' [] elseBranch z R) :
    S.Computes image k w [] (Skeleton.ifThenElse start thenLabel elseLabel stop cond thenBranch elseBranch)
      (do if (← x) ≠ 0 then y else z) R := by
  intro pc σ hp ha
  simp only [Skeleton.ifThenElse, placed_append, placed_cons, placed_nil, and_true, List.length_append,
    List.length_cons, List.length_nil, Nat.zero_add, ← Nat.add_assoc, and_assoc, Memory.pushes_nil] at hp ⊢
  obtain ⟨hstart, hc, hjumpz, hthenLabel, ht, hjump, helseLabel, he, hstop⟩ := hp
  refine Follows.of_reaches (Image.moves_label hstart).reaches ((hcond _ σ hc ha).bind fun n σ₁ b hq => ?_)
  obtain ⟨w₁, bs, hl₁, ha₁, ⟨rfl, -⟩, rfl⟩ := hq
  by_cases hn : n = 0
  · subst hn
    have hreach := (Image.moves_jumpz_zero (m := S.mem w₁) hjumpz (hl _ _ helseLabel)).reaches.trans
      (Image.moves_label helseLabel).reaches
    refine Follows.of_reaches hreach ?_
    refine (helse w₁ hl₁ _ σ₁ he ha₁).onward fun v σ₂ b hq => ?_
    obtain ⟨w₂, bs, hl₂, ha₂, hr, rfl⟩ := hq
    exact ⟨_, (Image.moves_label hstop).reaches, w₂, bs, S.leads_trans hl₁ hl₂, ha₂, hr, rfl⟩
  · have hreach := (Image.moves_jumpz_ne (m := S.mem w₁) hjumpz hn).reaches.trans
      (Image.moves_label hthenLabel).reaches
    simp only [if_pos hn]
    refine Follows.of_reaches hreach ?_
    refine (hthen w₁ hl₁ _ σ₁ ht ha₁).onward fun v σ₂ b hq => ?_
    obtain ⟨w₂, bs, hl₂, ha₂, hr, rfl⟩ := hq
    exact ⟨_, (Image.moves_jump hjump (hl _ _ hstop)).reaches.trans (Image.moves_label hstop).reaches, w₂, bs,
      S.leads_trans hl₁ hl₂, ha₂, hr, rfl⟩

/-! ## Sequences -/

/-- a value that is dropped before the rest -/
theorem computes_drop {α : Type} {R : S.World → α → List Int → Prop} {c d : Code ι} {f : Value → Eval α}
    (hx : S.Computes image k w [] c y (S.Single P))
    (hf : ∀ w' v, S.Leads w w' → S.Computes image k w' [] d (f v) R) :
    S.Computes image k w [] (c ++ [.pop] ++ d) (y >>= f) R := by
  rw [List.append_assoc]
  refine computes_bind hx fun w' v bs hl hr => ?_
  obtain ⟨a, rfl, -⟩ := hr
  refine computes_cons _ (fun pc h => ?_) (hf w' v hl)
  exact Image.moves_pop (m := S.mem w') h

/-! ## Loops -/

/-- the value of the last pass lies under a number -/
def Kept (good : Int → Prop) (P : S.World → Value → Int → Prop) (v : Value) (a : Int) (w : S.World) (n : Int)
    (bs : List Int) : Prop := bs = [a, n] ∧ P w v a ∧ good n

/-- a number that is computed over a word -/
theorem computes_over {c : Code ι} {v : Value} {a : Int} (hv : ∀ w', S.Leads w w' → P w' v a)
    (h : S.Computes image k (S.push w a) [] c x (S.Number good)) :
    S.Computes image k w [a] c x (S.Kept good P v a) := by
  intro pc σ hp ha
  have hx := h pc σ hp (S.agrees_push a ha)
  rw [Memory.pushes_nil, S.mem_push] at hx
  refine hx.imp fun n σ' b hq => ?_
  obtain ⟨w', bs, hl, ha', ⟨rfl, hn⟩, rfl⟩ := hq
  obtain ⟨w₁, rfl, hl₁, ha₁⟩ := S.leads_push ha hl ha'
  exact ⟨w₁, [a, n], hl₁, ha₁, ⟨rfl, hv w₁ hl₁, hn⟩, by rw [S.mem_push]; rfl⟩

/-- **While loops.** Every test finds the value of the last pass on the stack, and leaves it there. -/
theorem computes_whileDo {start stop : Label} {neutral cond body : Code ι} {v₀ : Value} {fuel : Nat}
    (hl : image.WellLabelled) (hk : k ≤ fuel) (hneutral : S.Computes image k w [] neutral (pure v₀) (S.Single P))
    (hcond : ∀ w' v a, S.Leads w w' → P w' v a → S.Computes image k w' [a] cond x (S.Kept good P v a))
    (hbody : ∀ w', S.Leads w w' → S.Computes image k w' [] body y (S.Single P)) :
    S.Computes image k w [] (Skeleton.whileDo start stop neutral cond body) (Eval.whileDo x y fuel v₀)
      (S.Single P) := by
  intro pc σ hp ha
  simp only [Skeleton.whileDo, placed_append, placed_cons, placed_nil, and_true, List.length_append,
    List.length_cons, List.length_nil, Nat.zero_add, ← Nat.add_assoc, and_assoc, Memory.pushes_nil] at hp ⊢
  obtain ⟨hne, hstart, hc, hjumpz, hpop, hb, hjump, hstop⟩ := hp
  -- from the label on, by induction on the passes that are left
  have hpass : ∀ fuel w' v a σ', S.Leads w w' → P w' v a → S.Agrees w' σ' →
      Follows image (min k fuel) ⟨pc + neutral.length, (S.mem w').push a⟩
        (S.Post w (pc + neutral.length + 1 + cond.length + 1 + 1 + body.length + 1 + 1) (S.Single P))
        (Eval.whileDo x y fuel v σ') := by
    intro fuel
    induction fuel with
    | zero =>
      intro w' v a σ' _ _ _
      rw [Nat.min_zero]
      exact Image.RunsOn.zero _
    | succ fuel ih =>
      intro w' v a σ' hl' hv ha'
      refine Follows.mono (Follows.of_moves (Image.moves_label hstart) ?_) (j := min k (fuel + 1)) (by omega)
        (k := min k fuel + 1)
      refine (((hcond w' v a hl' hv) _ σ' hc ha').mono (min_le_left k fuel)).bind fun n σ₁ b hq => ?_
      obtain ⟨w₁, bs, hl₁, ha₁, ⟨rfl, hv₁, -⟩, rfl⟩ := hq
      by_cases hn : n = 0
      · subst hn
        refine ⟨_, (Image.moves_jumpz_zero (m := (S.mem w₁).push a) hjumpz (hl _ _ hstop)).reaches.trans
          (Image.moves_label hstop).reaches, w₁, [a], S.leads_trans hl' hl₁, ha₁, ⟨a, rfl, hv₁⟩, rfl⟩
      · simp only [if_pos hn]
        refine Follows.of_reaches ((Image.moves_jumpz_ne (m := (S.mem w₁).push a) hjumpz hn).reaches.trans
          (Image.moves_pop hpop).reaches) ?_
        refine ((hbody w₁ (S.leads_trans hl' hl₁) _ σ₁ hb ha₁).mono (min_le_left k fuel)).bind fun v₂ σ₂ b hq => ?_
        obtain ⟨w₂, bs, hl₂, ha₂, ⟨a₂, rfl, hv₂⟩, rfl⟩ := hq
        exact Follows.of_reaches (Image.moves_jump hjump (hl _ _ hstart)).reaches
          (ih w₂ v₂ a₂ σ₂ (S.leads_trans hl' (S.leads_trans hl₁ hl₂)) hv₂ ha₂)
  have hfirst := hneutral _ σ hne ha
  obtain ⟨b, hreach, w₁, bs, hl₁, ha₁, ⟨a, rfl, hv⟩, rfl⟩ := hfirst
  exact (Follows.of_reaches hreach (hpass fuel w₁ v₀ a σ hl₁ hv ha₁)).mono (by omega)

/-- **Loops with the test at the end.** -/
theorem computes_doWhile {start stop : Label} {cond body : Code ι} {fuel : Nat}
    (hl : image.WellLabelled) (hk : k ≤ fuel)
    (hcond : ∀ w' v a, S.Leads w w' → P w' v a → S.Computes image k w' [a] cond x (S.Kept good P v a))
    (hbody : ∀ w', S.Leads w w' → S.Computes image k w' [] body y (S.Single P)) :
    S.Computes image k w [] (Skeleton.doWhile start stop body cond) (Eval.doWhile y x fuel) (S.Single P) := by
  intro pc σ hp ha
  simp only [Skeleton.doWhile, placed_append, placed_cons, placed_nil, and_true, List.length_append,
    List.length_cons, List.length_nil, Nat.zero_add, ← Nat.add_assoc, and_assoc, Memory.pushes_nil] at hp ⊢
  obtain ⟨hstart, hb, hc, hjumpz, hpop, hjump, hstop⟩ := hp
  have hpass : ∀ fuel w' σ', S.Leads w w' → S.Agrees w' σ' →
      Follows image (min k fuel) ⟨pc, S.mem w'⟩
        (S.Post w (pc + 1 + body.length + cond.length + 1 + 1 + 1 + 1) (S.Single P)) (Eval.doWhile y x fuel σ') := by
    intro fuel
    induction fuel with
    | zero =>
      intro w' σ' _ _
      rw [Nat.min_zero]
      exact Image.RunsOn.zero _
    | succ fuel ih =>
      intro w' σ' hl' ha'
      refine Follows.mono (Follows.of_moves (Image.moves_label hstart) ?_) (j := min k (fuel + 1)) (by omega)
        (k := min k fuel + 1)
      refine ((hbody w' hl' _ σ' hb ha').mono (min_le_left k fuel)).bind fun v σ₁ b hq => ?_
      obtain ⟨w₁, bs, hl₁, ha₁, ⟨a, rfl, hv⟩, rfl⟩ := hq
      have hl₁' := S.leads_trans hl' hl₁
      refine (((hcond w₁ v a hl₁' hv) _ σ₁ hc ha₁).mono (min_le_left k fuel)).bind fun n σ₂ b hq => ?_
      obtain ⟨w₂, bs, hl₂, ha₂, ⟨rfl, hv₂, -⟩, rfl⟩ := hq
      have hl₂' := S.leads_trans hl₁' hl₂
      by_cases hn : n = 0
      · subst hn
        exact ⟨_, (Image.moves_jumpz_zero (m := (S.mem w₂).push a) hjumpz (hl _ _ hstop)).reaches.trans
          (Image.moves_label hstop).reaches, w₂, [a], hl₂', ha₂, ⟨a, rfl, hv₂⟩, rfl⟩
      · simp only [if_pos hn]
        exact Follows.of_reaches (((Image.moves_jumpz_ne (m := (S.mem w₂).push a) hjumpz hn).reaches.trans
          (Image.moves_pop hpop).reaches).trans (Image.moves_jump hjump (hl _ _ hstart)).reaches)
          (ih w₂ σ₂ hl₂' ha₂)
  exact (hpass fuel w σ (S.leads_refl w) ha).mono (by omega)

/-- **Counted loops.** In a pass the counter lies under the words of the body; after it they change places. -/
theorem computes_countedLoop {start stop : Label} {neutral count body : Code ι} {v₀ : Value} {passes : Int → Nat}
    (hl : image.WellLabelled) (hpush : ∀ w' m v a, P (S.push w' m) v a → P w' v a)
    (hpasses : ∀ n, good n → passes n = countdown n)
    (hneutral : S.Computes image k w [] neutral (pure v₀) (S.Single P))
    (hcount : ∀ w' v a, S.Leads w w' → P w' v a →
      S.Computes image k w' [a] count x (S.Kept good P v a))
    (hbody : ∀ w' m, S.Leads w w' → S.Computes image k (S.push w' m) [] body y (S.Single P)) :
    S.Computes image k w [] (Skeleton.countedLoop start stop neutral count body)
      (do Eval.loop y (passes (← x)) v₀) (S.Single P) := by
  intro pc σ hp ha
  simp only [Skeleton.countedLoop, placed_append, placed_cons, placed_nil, and_true, List.length_append,
    List.length_cons, List.length_nil, Nat.zero_add, ← Nat.add_assoc, and_assoc, Memory.pushes_nil] at hp ⊢
  obtain ⟨hne, hc, hstart, hdup, hzero, hgt, hjumpz, hdec, hswap, hpop, hb, hback, hjump, hstop, hdrop⟩ := hp
  -- the test copies the counter
  have htest : ∀ (m : Memory ρ) n, image.Reaches ⟨pc + neutral.length + count.length, m.push n⟩
      ⟨pc + neutral.length + count.length + 1 + 1 + 1 + 1, (m.push n).push (truth (0 < n))⟩ := by
    intro m n
    exact (((Image.moves_label hstart).reaches.trans (Image.moves_dup hdup).reaches).trans
      (Image.moves_loadc hzero).reaches).trans (Image.moves_binary hgt rfl).reaches
  -- from the label on, by induction on the passes that are left
  have hpass : ∀ left n w' v a σ', countdown n = left → S.Leads w w' → P w' v a → S.Agrees w' σ' →
      Follows image k ⟨pc + neutral.length + count.length, ((S.mem w').push a).push n⟩
        (S.Post w (pc + neutral.length + count.length + 1 + 1 + 1 + 1 + 1 + 1 + 1 + 1 + body.length + 1 + 1 + 1 + 1)
          (S.Single P)) (Eval.loop y left v σ') := by
    intro left
    induction left with
    | zero =>
      intro n w' v a σ' hn hl' hv ha'
      have hn' : ¬ 0 < n := fun h => by
        rw [countdown_pos h] at hn
        exact Nat.succ_ne_zero _ hn
      have ht := htest ((S.mem w').push a) n
      rw [decide_eq_false hn'] at ht
      exact ⟨_, ((ht.trans (Image.moves_jumpz_zero hjumpz (hl _ _ hstop)).reaches).trans
        (Image.moves_label hstop).reaches).trans (Image.moves_pop hdrop).reaches, w', [a], hl', ha', ⟨a, rfl, hv⟩, rfl⟩
    | succ left ih =>
      intro n w' v a σ' hn hl' hv ha'
      have hn' : 0 < n := by
        by_contra h
        rw [countdown_of_not_pos h] at hn
        exact Nat.succ_ne_zero _ hn.symm
      have ht := htest ((S.mem w').push a) n
      rw [decide_eq_true hn'] at ht
      have hreach := (((ht.trans (Image.moves_jumpz_ne hjumpz (show truth true ≠ 0 by decide)).reaches).trans
        (Image.moves_dec hdec).reaches).trans (Image.moves_swap hswap).reaches).trans (Image.moves_pop hpop).reaches
      rw [Eval.loop]
      refine Follows.of_reaches hreach ?_
      have hfirst := hbody w' (wrap (n - 1)) hl' _ σ' hb (S.agrees_push _ ha')
      rw [Memory.pushes_nil, S.mem_push] at hfirst
      refine hfirst.bind fun v₁ σ₁ b hq => ?_
      obtain ⟨w₁, bs, hl₁, ha₁, ⟨a₁, rfl, hv₁⟩, rfl⟩ := hq
      obtain ⟨w₂, rfl, hl₂, ha₂⟩ := S.leads_push ha' hl₁ ha₁
      rw [S.mem_push]
      refine Follows.of_reaches ((Image.moves_swap hback).reaches.trans (Image.moves_jump hjump (hl _ _ hstart)).reaches)
        (ih _ w₂ v₁ a₁ σ₁ ?_ (S.leads_trans hl' hl₂) (hpush _ _ _ _ hv₁) ha₂)
      rw [countdown_pos hn'] at hn
      exact Nat.succ.inj hn
  obtain ⟨b, hreach, w₁, bs, hl₁, ha₁, ⟨a, rfl, hv⟩, rfl⟩ := hneutral _ σ hne ha
  refine Follows.of_reaches hreach ((hcount w₁ v₀ a hl₁ hv _ σ hc ha₁).bind fun n σ₂ b hq => ?_)
  obtain ⟨w₂, bs, hl₂, ha₂, ⟨rfl, hv₂, hn⟩, rfl⟩ := hq
  exact hpass _ n w₂ v₀ a σ₂ (hpasses n hn).symm (S.leads_trans hl₁ hl₂) hv₂ ha₂

end Setting
end ThreeMachines
