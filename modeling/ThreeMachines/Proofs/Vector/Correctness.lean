/-
Correctness of the vector machine's code.

- `correct`: the code of every expression follows its evaluation, by induction on the fuel.
- `follows_compile`: the run of a compiled program follows the evaluation of its expression, from the start on.
- `settles_of_yields_calleeFirst`: a compiled program settles on what its expression yields, a number or an arithmetic
  fault. Callees are evaluated before their arguments, and all variables start at 0.
-/
import ThreeMachines.Proofs.Vector.Calls

namespace ThreeMachines.Vector

open Heap (address)

/-! ## Expressions -/

/-- **Expressions.** The code of every expression follows its evaluation. -/
theorem correct {image : Image Op} (hl : image.WellLabelled) (fuel k : Nat) : Correct image fuel k := by
  induction fuel generalizing k with
  | zero =>
    intro low w env ρ depth mode e c _ hb _ pc σ _ _
    rw [hb.eq_zero]
    exact Image.RunsOn.zero _
  | succ fuel ih =>
    intro low w env ρ depth mode e c he hb hs
    have hc := ih k
    have hpart : ∀ part ∈ e.children, part.Budget fuel k := fun part => hb.child
    cases he with
    | number value => exact computes_number hs (isWord_toInt value)
    | bool value => exact computes_number hs (by cases value <;> rfl)
    | var hname => exact computes_var hname hs
    | unary he => exact computes_unary hc he (hpart _ (by simp [Expr.children])) hs
    | binary hel her =>
      exact computes_binary hc hel her (hpart _ (by simp [Expr.children])) (hpart _ (by simp [Expr.children])) hs
    | assign hname he => exact computes_assign hc hname he (hpart _ (by simp [Expr.children])) hs
    | seq he => exact computes_sequence hc he hpart hs _
    | ite hcond hthen helse => exact computes_ite hl hc hcond hthen helse hpart hs
    | whileDo hcond hbody =>
      exact Setting.computes_whileDo hl hb.le (computes_number hs rfl)
        (fun w' v a hl' hv => computes_over hc hcond (hpart _ (by simp [Expr.children])) (hs.leads hl') hv)
        (fun w' hl' => hc hbody (hpart _ (by simp [Expr.children])) (hs.leads hl'))
    | doWhile hbody hcond =>
      exact Setting.computes_doWhile hl hb.le
        (fun w' v a hl' hv => computes_over hc hcond (hpart _ (by simp [Expr.children])) (hs.leads hl') hv)
        (fun w' hl' => hc hbody (hpart _ (by simp [Expr.children])) (hs.leads hl'))
    | loop hcount hbody =>
      show (setting image low).Computes image k w [] _ (Expr.eval convention fuel env _ >>= fun v =>
        Eval.word v >>= fun n => Eval.loop _ (convention.passes n) (.int 0)) _
      rw [← bind_assoc]
      exact Setting.computes_countedLoop hl (fun w' m v a hv => hv.of_layout rfl)
        (fun n hn => (countdown_of_isWord hn).symm) (computes_number hs rfl)
        (fun w' v a hl' hv => computes_over hc hcount (hpart _ (by simp [Expr.children])) (hs.leads hl') hv)
        (fun w' m hl' => hc hbody (hpart _ (by simp [Expr.children])) ((hs.leads hl').push m))
    | block hnodup hvalues hbody => exact computes_local hc hnodup hvalues hbody hpart hs
    | lambda hpushed ht hem => exact computes_function hpushed ht hem hs
    | proc hpushed ht hem => exact computes_function hpushed ht hem hs
    | call hcallee hargs =>
      obtain rfl := hb.of_not_functionFree rfl
      exact computes_call hl (ih 0) hcallee hargs hs

/-! ## Programs -/

/-- an empty heap without variables -/
def Layout.empty : Layout := ⟨.empty, fun _ => none, fun _ => none⟩

theorem Layout.agrees_empty (image : Image Op) : Layout.empty.Agrees image .empty where
  fixed _ _ h := nomatch h
  apart _ _ _ _ h := nomatch h
  loose _ _ h := nomatch h
  known _ _ h := nomatch h
  cell _ _ h := nomatch h

/-- the globals get their cells before all else -/
theorem reaches_globals {image : Image Op} {pc : Nat} {names : List String} (hnodup : names.Nodup)
    (hp : Placed image pc [.own (.alloc names.length), .own (.mkvec names.length), .own .setgp]) :
    ∃ w : World, w.layout.Agrees image .empty ∧ Scoped 0 w [] (Scope.empty.extend (numbered .global 0 names)) 0 ∧
      image.Reaches ⟨pc, ⟨#[], .empty, ⟨0, 0, 0, -1⟩⟩⟩ ⟨pc + 1 + 1 + 1, w.mem⟩ := by
  obtain ⟨halloc, hvec, hsetgp, -⟩ := hp
  obtain ⟨L₁, as, -, ha₁, hplace, hcells, hmem⟩ := reaches_withCell (w := ⟨#[], ⟨0, 0, 0, -1⟩, .empty⟩)
    names.length (Layout.agrees_empty image) le_rfl
  have hlength := hcells.length_eq
  rw [List.length_replicate] at hlength
  rw [← hlength] at hvec
  have hg := ha₁.grows_block le_rfl (as.length :: as)
  have hvalues : (names.map Variable.global).map Store.empty.value = List.replicate names.length (.int 0) := by
    rw [List.map_map]
    exact List.map_const' ..
  obtain ⟨L₂, hheap, hg₂, ha₂, hglobals⟩ := (ha₁.block (as.length :: as)).trackAll
    (hnodup.map fun _ _ h => Variable.global.inj h) (fun x _ => by rw [Layout.block, hplace]; rfl)
    (fun k hk => by simp at hk) (hvalues ▸ hcells.grows hg)
  refine ⟨⟨#[], ⟨address L₁.heap.words.size, 0, 0, -1⟩, L₂⟩, ha₂, ⟨Nat.zero_le _, rfl, ?_⟩, ?_⟩
  · intro x b hb
    obtain ⟨hin, rfl⟩ := Scope.mem_of_extend_empty hb
    obtain ⟨i, hi⟩ := List.mem_iff_getElem?.1 hin
    obtain ⟨hname, hst, had⟩ := getElem?_numbered hi
    obtain ⟨q, hq, hplace⟩ := hglobals i (.global b.name) (by simp [hname])
    refine ⟨q, hplace, ?_⟩
    rw [Addressed, hst]
    refine ⟨L₁.heap.words.size, i, rfl, by rw [had, Int.zero_add], hg₂.fixed _ _ ?_⟩
    rw [Nat.add_assoc, Nat.add_comm 1, Layout.fixed_block]
    exact hq
  · have h₁ : image.Moves _ ⟨pc + 1, withCell^[names.length] (World.mem ⟨#[], ⟨0, 0, 0, -1⟩, .empty⟩)⟩ :=
      moves_alloc halloc
    rw [hmem] at h₁
    have h₂ := (h₁.reaches.trans (moves_mkvec as hvec).reaches).trans (moves_setgp hsetgp).reaches
    rw [World.mem, hheap]
    exact h₂

/-- **Programs.** The run of a compiled program follows the evaluation of its expression. -/
theorem follows_compile {e : Expr} {p : Program Op} {fuel k : Nat} (h : compile .vector e = .ok p)
    (hb : e.Budget fuel k) :
    Follows (Image.ofProgram p) k p.startPoint (p.Halts (ρ := Registers)) (e.eval convention fuel [] .empty) := by
  obtain ⟨hcheck, hnodup, entry, hcode, hem⟩ := emits_compile h
  have hplaced := Image.placed_entry p
  rw [hcode, placed_append] at hplaced
  obtain ⟨w, ha, hs, hreach⟩ := reaches_globals hnodup hplaced.1
  refine Follows.of_reaches hreach ?_
  have hf := correct (Image.wellLabelled_of_checkLabels hcheck) fuel k hem hb hs _ _ hplaced.2 ha
  refine hf.imp fun v σ b hq n hn => ?_
  obtain ⟨w', bs, -, -, ⟨a, rfl, hv⟩, rfl⟩ := hq
  obtain ⟨rfl, -⟩ := hv n hn
  refine ⟨w'.mem, ?_⟩
  rw [Image.stop_ofProgram, hcode, List.length_append, ← Nat.add_assoc]
  rfl

/-- **Correctness of the vector machine.** A compiled program settles on what its expression yields. -/
theorem settles_of_yields_calleeFirst {e : Expr} {p : Program Op} {result : Except Fault Int} (h : compile .vector e = .ok p)
    (hy : e.Yields (.usual .calleeFirst) result) : p.Settles result :=
  Program.settles_of_follows (fun fuel => follows_compile h (.none e fuel)) hy

/-- a function that changes a variable of the block around it, which sees the change -/
def sharedVariable : Expr :=
  .block [("x", .number 5), ("f", .lambda ["y"] (.assign "x" (.binary .add (.var "x") (.var "y"))))]
    (.binary .add (.call (.var "f") [.number 2]) (.var "x"))

theorem sharedVariable_settles : ∃ p, compile .vector sharedVariable = .ok p ∧
    sharedVariable.Yields (.usual .calleeFirst) (.ok 14) ∧ p.Settles (.ok 14) := by
  obtain ⟨p, hp⟩ := exists_of_isOk (m := .vector) (e := sharedVariable) (by decide +kernel)
  have hy : sharedVariable.Yields (.usual .calleeFirst) (.ok 14) := ⟨20, by decide +kernel⟩
  exact ⟨p, hp, hy, settles_of_yields_calleeFirst hp hy⟩

end ThreeMachines.Vector
