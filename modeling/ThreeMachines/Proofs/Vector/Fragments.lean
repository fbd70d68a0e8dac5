/-
The code of the vector machine, one kind of expression after the other.

`Correct image fuel k` says that the code of every expression, in either mode, follows its evaluation with this fuel. The
lemmas here say of operators, assignments, sequences and blocks that they follow their evaluation if their parts do.
-/
import ThreeMachines.Proofs.Vector.World

namespace ThreeMachines.Vector

open Heap (address)

/-- the callee is evaluated before the arguments -/
abbrev convention : Convention := .usual .calleeFirst

/-- the code of every expression follows its evaluation with this fuel -/
def Correct (image : Image Op) (fuel k : Nat) : Prop :=
  ∀ ⦃low w env ρ depth mode e c⦄, Emits image ρ depth mode e c → e.Budget fuel k → Scoped low w env ρ depth →
    (setting image low).Computes image k w [] c (e.eval convention fuel env) (Result image low mode)

section
variable {image : Image Op} {low k fuel : Nat} {w : World} {env : Env} {ρ : Scope} {depth : Int} {mode : Mode}

/-! ## Numbers -/

theorem computes_box {n : Int} (hs : Scoped low w env ρ depth) (hn : isWord n = true) :
    (setting image low).Computes image k w [n] mode.box (pure (.int n)) (Result image low mode) := by
  refine Setting.computes_of_reaches fun pc σ hp ha => ?_
  obtain ⟨L, a, hg, ha', hv, hreach⟩ := reaches_box hp ha hs.low_le hn
  exact ⟨_, σ, w.on L, [a], rfl, World.leads_on hg, ha', ⟨a, rfl, hv⟩, hreach⟩

theorem computes_number {n : Int} (hs : Scoped low w env ρ depth) (hn : isWord n = true) :
    (setting image low).Computes image k w [] ([.loadc (.int n)] ++ mode.box) (pure (.int n))
      (Result image low mode) :=
  Setting.computes_cons _ (fun _ h => Image.moves_loadc h) (computes_box hs hn)

theorem isNumber_of_shown {w : World} {n a : Int} (h : Shown image low .basic w (.int n) a) :
    a = n ∧ isWord n = true := h n rfl

theorem computes_unary {op : UnaryOp} {operand : Expr} {c : Code Op} (hc : Correct image fuel k)
    (he : Emits image ρ depth .basic operand c) (hb : operand.Budget fuel k) (hs : Scoped low w env ρ depth) :
    (setting image low).Computes image k w [] (c ++ [.unary op] ++ mode.box)
      (Expr.eval convention (fuel + 1) env (.unary op operand)) (Result image low mode) := by
  rw [List.append_assoc]
  refine Setting.computes_bind_word (hc he hb hs) (fun _ _ _ => isNumber_of_shown) fun w' n hl _ => ?_
  refine Setting.computes_cons _ (fun pc h => ?_) (computes_box (hs.leads hl) (isWord_unary op n))
  exact Image.moves_unary (m := w'.mem) h

theorem computes_binary {op : BinaryOp} {lhs rhs : Expr} {left right : Code Op} (hc : Correct image fuel k)
    (hel : Emits image ρ depth .basic lhs left) (her : Emits image ρ (depth + 1) .basic rhs right)
    (hbl : lhs.Budget fuel k) (hbr : rhs.Budget fuel k) (hs : Scoped low w env ρ depth) :
    (setting image low).Computes image k w [] (left ++ right ++ [.binary op] ++ mode.box)
      (Expr.eval convention (fuel + 1) env (.binary op lhs rhs)) (Result image low mode) := by
  rw [List.append_assoc, List.append_assoc]
  refine Setting.computes_bind_word (hc hel hbl hs) (fun _ _ _ => isNumber_of_shown) fun w₁ m hl₁ hm => ?_
  refine Setting.computes_bind_word (hc her hbr ((hs.leads hl₁).push m)) (fun _ _ _ => isNumber_of_shown)
    fun w₂ n hl₂ _ => ?_
  exact Setting.computes_binary fun r hr => computes_box ((hs.leads hl₁).leads hl₂) (isWord_binary hm hr)

/-! ## Variables -/

theorem computes_var {name : String} {b : Binding} (hb : ρ name = some b) (hs : Scoped low w env ρ depth) :
    (setting image low).Computes image k w [] (storage b :: mode.read) (Eval.read (env.variable name))
      (Result image low mode) := by
  refine Setting.computes_of_reaches fun pc σ hp ha => ?_
  obtain ⟨q, hq, hpush⟩ := reaches_storage hp.1 ha (hs.finds name b hb)
  obtain ⟨L, a, hg, ha', hv, hread⟩ := reaches_read hp.2 ha hs.low_le hq
  rw [List.length_cons, Nat.add_comm mode.read.length, ← Nat.add_assoc]
  exact ⟨_, σ, w.on L, [a], rfl, World.leads_on hg, ha', ⟨a, rfl, hv⟩, hpush.trans hread⟩

/-- a fresh cell is copied into the cell of a variable, whose address stays -/
theorem reaches_store {pc q : Nat} {σ : Store} {x : Variable} {v : Value} {a : Int}
    (h : image.instrs[pc]? = some (.own .store)) (ha : w.layout.Agrees image σ) (hx : w.layout.place x = some q)
    (hv : Shown image low .value w v a) :
    ∃ L, w.layout.Grows low L ∧ L.Agrees image (σ.write x v) ∧ L.place x = some q ∧
      image.Reaches ⟨pc, (w.mem.push (address q)).push a⟩ ⟨pc + 1, (w.on L).mem.push (address q)⟩ := by
  obtain ⟨p, rfl, hf⟩ := hv
  obtain ⟨payload, tag, hp, ht, hh⟩ := hf.cell
  have hne := hf.free.apart x q hx
  exact ⟨_, Layout.Agrees.grows_assign hx payload tag, ha.assign hx hh, hx,
    (moves_store (m := w.mem) h hp ht (ha.cell x q hx).size hne.2.2).reaches⟩

theorem computes_assign {name : String} {b : Binding} {value : Expr} {pushed : Code Op} (hc : Correct image fuel k)
    (hb : ρ name = some b) (he : Emits image ρ (depth + 1) .value value pushed) (hbud : value.Budget fuel k)
    (hs : Scoped low w env ρ depth) :
    (setting image low).Computes image k w [] (storage b :: pushed ++ [.own .store] ++ mode.read)
      (Expr.eval convention (fuel + 1) env (.assign name value)) (Result image low mode) := by
  intro pc σ hp ha
  rw [List.cons_append, List.cons_append, List.append_assoc] at hp ⊢
  obtain ⟨q, hq, hpush⟩ := reaches_storage hp.1 ha (hs.finds name b hb)
  refine Follows.of_reaches hpush ?_
  have hrest : (setting image low).Computes image k w [address q] (pushed ++ ([.own .store] ++ mode.read))
      (Expr.eval convention (fuel + 1) env (.assign name value)) (Result image low mode) := by
    refine Setting.computes_bind (hc he hbud (hs.push _)) fun w₁ v bs hl₁ hr => ?_
    obtain ⟨a, rfl, hv⟩ := hr
    refine Setting.computes_of_reaches fun pc σ₁ hp₁ ha₁ => ?_
    obtain ⟨L, hg, ha₂, hx, hstore⟩ := reaches_store hp₁.1 ha₁ (hl₁.grows.place _ _ hq) hv
    have hs₁ := (hs.leads hl₁).leads (World.leads_on hg)
    obtain ⟨L', a', hg', ha₃, hv', hread⟩ := reaches_read hp₁.2 ha₂ hs₁.low_le hx
    have hvalue : (σ₁.write (env.variable name) v).value (env.variable name) = v := if_pos rfl
    rw [hvalue] at hv'
    rw [List.length_append, List.length_singleton, ← Nat.add_assoc]
    exact ⟨v, _, w₁.on L', [a'], rfl, World.leads_on (hg.trans hg'), ha₃, ⟨a', rfl, hv'⟩, hstore.trans hread⟩
  rw [List.length_cons, ← Nat.add_assoc, Nat.add_right_comm pc]
  exact hrest _ σ hp.2 ha

/-! ## Sequences, branches and loops -/

theorem computes_sequence {items : List Expr} {c : Code Op} (hc : Correct image fuel k)
    (he : EmitsSequence image ρ depth mode items c) (hb : ∀ e ∈ items, e.Budget fuel k)
    (hs : Scoped low w env ρ depth) (last : Value) :
    (setting image low).Computes image k w [] c (Eval.items (Expr.eval convention fuel env) last items)
      (Result image low mode) := by
  induction items generalizing w c last with
  | nil => nomatch he
  | cons item items ih =>
    have hitem := hb item List.mem_cons_self
    cases he with
    | last he =>
      have h := hc he hitem hs
      rwa [← bind_pure (Expr.eval convention fuel env item)] at h
    | cons he hrest =>
      exact Setting.computes_drop (hc he hitem hs) fun w' v hl =>
        ih hrest (fun e hm => hb e (List.mem_cons_of_mem _ hm)) (hs.leads hl) v

theorem computes_optional {e : Option Expr} {c : Code Op} (hc : Correct image fuel k)
    (he : EmitsOptional image ρ depth mode e c) (hb : ∀ part ∈ e.toList, part.Budget fuel k)
    (hs : Scoped low w env ρ depth) :
    (setting image low).Computes image k w [] c
      (match e with
        | some e => Expr.eval convention fuel env e
        | none => pure (.int 0)) (Result image low mode) := by
  cases he with
  | none => exact computes_number hs rfl
  | some he => exact hc he (hb _ (by simp)) hs

/-- a number for a test -/
theorem computes_test {e : Expr} {c : Code Op} (hc : Correct image fuel k) (he : Emits image ρ depth .basic e c)
    (hb : e.Budget fuel k) (hs : Scoped low w env ρ depth) :
    (setting image low).Computes image k w [] c (do Eval.word (← Expr.eval convention fuel env e))
      ((setting image low).Number (isWord · = true)) := by
  refine (hc he hb hs).word fun w' n bs hr => ?_
  obtain ⟨_, rfl, hv⟩ := hr
  obtain ⟨rfl, hn⟩ := isNumber_of_shown hv
  exact ⟨rfl, hn⟩

/-- a number for a test over the value of the last pass -/
theorem computes_over {e : Expr} {c : Code Op} {v : Value} {a : Int} (hc : Correct image fuel k)
    (he : Emits image ρ (depth + 1) .basic e c) (hb : e.Budget fuel k) (hs : Scoped low w env ρ depth)
    (hv : Shown image low mode w v a) :
    (setting image low).Computes image k w [a] c (do Eval.word (← Expr.eval convention fuel env e))
      ((setting image low).Kept (isWord · = true) (Shown image low mode) v a) :=
  -- the value may lie in a cell that is safe only if the test is careful with all cells
  computes_lower _ hs.low_le (Setting.computes_over (P := Shown image low mode) (fun _ hl => hv.leads hl)
    (computes_test hc he hb (hs.raise.push a))) fun _ _ _ _ => id

theorem computes_ite {cond thenBranch : Expr} {elseBranch : Option Expr} {start thenLabel elseLabel stop : Label}
    {cc tc ec : Code Op} (hl : image.WellLabelled) (hc : Correct image fuel k)
    (hcond : Emits image ρ depth .basic cond cc) (hthen : Emits image ρ depth mode thenBranch tc)
    (helse : EmitsOptional image ρ depth mode elseBranch ec)
    (hb : ∀ part ∈ (Expr.ite cond thenBranch elseBranch).children, part.Budget fuel k)
    (hs : Scoped low w env ρ depth) :
    (setting image low).Computes image k w [] (Skeleton.ifThenElse start thenLabel elseLabel stop cc tc ec)
      (Expr.eval convention (fuel + 1) env (.ite cond thenBranch elseBranch)) (Result image low mode) := by
  show (setting image low).Computes image k w [] _ (Expr.eval convention fuel env cond >>= fun v =>
    Eval.word v >>= fun n => if n ≠ 0 then _ else _) _
  rw [← bind_assoc]
  exact Setting.computes_ifThenElse hl (computes_test hc hcond (hb _ (by simp [Expr.children])) hs)
    (fun w' hl' => hc hthen (hb _ (by simp [Expr.children])) (hs.leads hl'))
    (fun w' hl' => computes_optional hc helse (fun part hp => hb _ (by simp [Expr.children, Option.mem_toList.1 hp]))
      (hs.leads hl'))

/-! ## Blocks -/

/-- new cells that hold 0, pushed by the machine -/
theorem reaches_withCell {σ : Store} (count : Nat) (ha : w.layout.Agrees image σ)
    (hlow : low ≤ w.layout.heap.words.size) :
    ∃ L as, w.layout.Grows low L ∧ L.Agrees image σ ∧ L.place = w.layout.place ∧
      Layout.FreshCells image low L (List.replicate count (.int 0)) as ∧
      withCell^[count] w.mem = (w.on L).mem.pushes as := by
  induction count generalizing w low with
  | zero => exact ⟨w.layout, [], .refl low _, ha, rfl, .nil, rfl⟩
  | succ count ih =>
    have hg₁ := ha.grows_block hlow [0]
    have ha₁ := ha.block [0]
    have hlow₁ := hlow.trans hg₁.size
    have hh : (w.layout.block [0]).Holds image (address w.layout.heap.words.size) Tag.basic.word (.int 0) :=
      ⟨rfl, rfl, _, rfl, w.layout.fixed_block [0] 0⟩
    have hfresh := ha₁.fresh_append hlow₁ hh
    have hg₂ := Layout.grows_append hlow₁ [address w.layout.heap.words.size, Tag.basic.word]
    have ha₂ := ha₁.append [address w.layout.heap.words.size, Tag.basic.word]
    -- the cells that follow lie above this one
    obtain ⟨L, as, hg, ha', hplace, hcells, hmem⟩ :=
      ih (w := (w.on ((w.layout.block [0]).append [address w.layout.heap.words.size, Tag.basic.word])).push
        (address (w.layout.block [0]).heap.words.size)) ha₂ le_rfl
    have hq := hfresh.cell.size
    refine ⟨L, _, (hg₁.trans hg₂).trans (hg.lower (hlow₁.trans hg₂.size)), ha', hplace,
      .cons (hfresh.grows hg hq) hq hcells, ?_⟩
    rw [Function.iterate_succ_apply, Memory.pushes_cons]
    refine Eq.trans (congrArg _ ?_) hmem
    simp [withCell, World.mem, World.push, World.on, Layout.append, Layout.block, Memory.onHeap, Memory.push,
      Heap.append_append]

theorem getElem?_numbered {storage : Storage} {place : Int} {names : List String} {i : Nat} {b : Binding}
    (h : (numbered storage place names)[i]? = some b) :
    names[i]? = some b.name ∧ b.storage = storage ∧ b.address = place + i := by
  induction names generalizing place i with
  | nil => simp [numbered] at h
  | cons name names ih =>
    cases i with
    | zero =>
      obtain rfl : ⟨name, storage, place⟩ = b := by simpa [numbered] using h
      simp
    | succ i =>
      obtain ⟨hi, hs, ha⟩ := ih (by simpa [numbered] using h)
      refine ⟨hi, hs, ?_⟩
      rw [ha]
      push_cast
      ring

/-- the scope of a block over its new cells -/
theorem Scoped.block {names : List String} {as : List Int} {L : Layout} {first : Nat} (hs : Scoped low w env ρ depth)
    (hnodup : names.Nodup) (hg : w.layout.Grows low L) (hlength : as.length = names.length)
    (hcells : ∀ i, i < names.length → ∃ q, as[i]? = some (address q) ∧ L.place (.cell (first + i)) = some q) :
    Scoped low ((w.on L).pushes as) (env.cells first names)
      (ρ.extend (numbered .blockLocal (depth + 1) names)) (depth + names.length) := by
  have hsize := hs.size
  have hold : Resolves (Located ((w.on L).pushes as)) env ρ :=
    hs.finds.imp fun _ _ hb => (hb.leads (World.leads_on hg)).pushes as
  have hnew := hold.extend (k := first) (numbered .blockLocal (depth + 1) names)
    (by rwa [map_name_numbered]) fun i b hb => by
      obtain ⟨hi, hst, had⟩ := getElem?_numbered hb
      obtain ⟨q, hq, hplace⟩ := hcells i (List.getElem?_eq_some_iff.1 hi).1
      refine ⟨q, hplace, ?_⟩
      rw [Addressed]
      simp only [hst]
      refine ⟨w.words.size + i, ?_, ?_⟩
      · simp only [World.on, World.pushes]
        push_cast
        omega
      · simp [World.on, World.pushes, Array.getElem?_append, hq]
  rw [map_name_numbered] at hnew
  refine ⟨hs.low_le.trans hg.size, ?_, hnew⟩
  simp only [World.on, World.pushes, Array.size_append, List.size_toArray, hlength]
  push_cast
  omega

/-- **Blocks.** Code over new cells that hold 0, which are dropped at the end -/
theorem computes_block {names : List String} {c : Code Op} {f : Env → Eval Value} (hnodup : names.Nodup)
    (hs : Scoped low w env ρ depth)
    (hc : ∀ w' env' pc σ, Scoped low w' env' (ρ.extend (numbered .blockLocal (depth + 1) names)) (depth + names.length) →
      (∀ x ∈ names, σ.value (env'.variable x) = .int 0) → Placed image pc c → w'.layout.Agrees image σ →
      Follows image k ⟨pc, w'.mem⟩ ((setting image low).Post w' (pc + c.length) (Result image low mode)) (f env' σ)) :
    (setting image low).Computes image k w []
      ([.own (.alloc names.length)] ++ c ++ [.own (.slide names.length)])
      (Eval.extend env (names.map fun name => (name, fun _ => .int 0)) >>= f) (Result image low mode) := by
  intro pc σ hp ha
  simp only [placed_append, placed_cons, placed_nil, and_true, List.length_append, List.length_cons, List.length_nil,
    Nat.zero_add, ← Nat.add_assoc, and_assoc] at hp ⊢
  obtain ⟨halloc, hbody, hslide⟩ := hp
  obtain ⟨L, as, hg, ha₁, -, hcells, hmem⟩ := reaches_withCell (w := w) names.length ha hs.low_le
  obtain ⟨L', hheap, hg', ha', hplace⟩ := ha₁.enter hcells
  have hlength := hcells.length_eq
  rw [List.length_replicate] at hlength hplace
  have hreach := (moves_alloc (m := w.mem) halloc).reaches
  have hmem' : (w.on L).mem = (w.on L').mem := by rw [World.mem, World.mem, World.on, World.on, hheap]
  rw [hmem, hmem'] at hreach
  refine Follows.of_reaches hreach ?_
  rw [Eval.extend_zeros]
  have hzero : ∀ x ∈ names, (σ.cells ((List.replicate names.length (.int 0)).map fun v _ => v)).value
      ((env.cells σ.next names).variable x) = .int 0 := by
    intro x hx
    obtain ⟨i, hi⟩ := List.mem_iff_getElem?.1 hx
    have hlt := (List.getElem?_eq_some_iff.1 hi).1
    rw [Env.variable_cells_new hnodup hi]
    exact σ.cells_value_new (show ((List.replicate names.length (Value.int 0)).map fun v (_ : Nat) => v)[i]? =
      some fun _ => .int 0 by simp [hlt])
  have hfollows := hc _ _ _ (σ.cells _) (hs.block hnodup (hg.trans hg') hlength hplace) hzero hbody ha'
  rw [← mem_pushes]
  refine hfollows.onward fun v σ' b hq => ?_
  obtain ⟨w₁, bs, hl₁, ha₁', ⟨a, rfl, hv⟩, rfl⟩ := hq
  rw [← pushes_eq] at hl₁
  obtain ⟨w₂, rfl, hl₂, ha₂⟩ := Setting.leads_pushes ha' hl₁ ha₁'
  rw [pushes_eq] at hv
  have hslide' := (moves_slide (m := w₂.mem) (a := a) as (by rwa [hlength])).reaches
  rw [← mem_pushes] at hslide'
  rw [pushes_eq]
  exact ⟨_, hslide', w₂, [a], (setting image low).leads_trans (World.leads_on (hg.trans hg')) hl₂, ha₂,
    ⟨a, rfl, hv.of_layout rfl⟩, rfl⟩

theorem computes_initial {bindings : List (String × Expr)} {c : Code Op} (hc : Correct image fuel k)
    (he : EmitsInitial image ρ depth bindings c) (hb : ∀ b ∈ bindings, b.2.Budget fuel k)
    (hs : Scoped low w env ρ (depth - 1)) :
    (setting image low).Computes image k w [] c (Eval.bindings (Expr.eval convention fuel env) env bindings)
      fun _ _ bs => bs = [] := by
  induction bindings generalizing w c with
  | nil =>
    cases he
    exact Setting.computes_nil rfl
  | cons binding rest ih =>
    cases he with
    | @cons _ _ name value _ b pushed values hname hvalue hrest =>
      intro pc σ hp ha
      rw [List.append_assoc, List.cons_append] at hp ⊢
      obtain ⟨q, hq, hpush⟩ := reaches_storage hp.1 ha (hs.finds name b hname)
      refine Follows.of_reaches hpush ?_
      have hs' := hs.push (address q)
      rw [Int.sub_add_cancel] at hs'
      have hcode : (setting image low).Computes image k w [address q] (pushed ++ ([.own .store, .pop] ++ values))
          (Eval.bindings (Expr.eval convention fuel env) env ((name, value) :: rest)) fun _ _ bs => bs = [] := by
        refine Setting.computes_bind (hc hvalue (hb (name, value) List.mem_cons_self) hs') fun w₁ v bs hl₁ hr => ?_
        obtain ⟨a, rfl, hv⟩ := hr
        intro pc₁ σ₁ hp₁ ha₁
        obtain ⟨L, hg, ha₂, -, hstore⟩ := reaches_store hp₁.1 ha₁ (hl₁.grows.place _ _ hq) hv
        have hl₂ := World.leads_on hg
        have hrest' := ih hrest (fun b hm => hb b (List.mem_cons_of_mem _ hm)) ((hs.leads hl₁).leads hl₂) _ _ hp₁.2.2 ha₂
        refine Follows.of_reaches (hstore.trans (Image.moves_pop (m := (w₁.on L).mem) hp₁.2.1).reaches) ?_
        simp only [List.cons_append, List.nil_append, List.length_cons]
        rw [show pc₁ + (values.length + 1 + 1) = pc₁ + 1 + 1 + values.length by omega]
        exact hrest'.imp fun _ _ _ hq => Setting.post_of_leads hl₂ hq
      rw [List.length_cons, ← Nat.add_assoc, Nat.add_right_comm pc]
      exact hcode _ σ hp.2 ha

theorem computes_local {bindings : List (String × Expr)} {body : Expr} {values result : Code Op}
    (hc : Correct image fuel k) (hnodup : (bindings.map Prod.fst).Nodup)
    (hvalues : EmitsInitial image (ρ.extend (numbered .blockLocal (depth + 1) (bindings.map Prod.fst)))
      (depth + bindings.length + 1) bindings values)
    (hbody : Emits image (ρ.extend (numbered .blockLocal (depth + 1) (bindings.map Prod.fst))) (depth + bindings.length)
      mode body result)
    (hb : ∀ part ∈ (Expr.block bindings body).children, part.Budget fuel k) (hs : Scoped low w env ρ depth) :
    (setting image low).Computes image k w []
      ([.own (.alloc bindings.length)] ++ values ++ result ++ [.own (.slide bindings.length)])
      (Expr.eval convention (fuel + 1) env (.block bindings body)) (Result image low mode) := by
  have hitems : (bindings.map fun b => (b.1, fun i => Value.int (convention.fresh i))) =
      (bindings.map Prod.fst).map fun name => (name, fun _ => .int 0) := by
    rw [List.map_map]
    rfl
  have hlength : (bindings.map Prod.fst).length = bindings.length := List.length_map ..
  show (setting image low).Computes image k w [] _
    (Eval.extend env (bindings.map fun b => (b.1, fun i => .int (convention.fresh i))) >>= _) _
  rw [hitems, ← hlength, List.append_assoc [_]]
  refine computes_block hnodup hs fun w' env' pc σ hs' _ hp ha => ?_
  rw [hlength] at hs'
  have hvalues' := computes_initial (w := w') hc hvalues
    (fun b hm => hb _ (List.mem_cons_of_mem _ (List.mem_map_of_mem hm))) (by rwa [Int.add_sub_cancel])
  refine (Setting.computes_bind hvalues' fun w'' _ bs hl hr => ?_ :
    (setting image low).Computes image k w' [] _ _ _) pc σ hp ha
  rw [hr]
  exact hc hbody (hb _ (by simp [Expr.children])) (hs'.leads hl)

end
end ThreeMachines.Vector
