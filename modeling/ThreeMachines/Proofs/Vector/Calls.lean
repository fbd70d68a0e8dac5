/-
Functions and calls on the vector machine.

A function captures the cells of its free names, so that its body shares them with the code around it. A call makes the
cells of its arguments the cells of the parameters. What the caller has on the stack lies under the function's frame, and
`ret` finds it again.
-/
import ThreeMachines.Proofs.Vector.Fragments

namespace ThreeMachines.Vector

open Heap (address)

variable {image : Image Op} {low k fuel : Nat} {w : World} {env : Env} {ρ : Scope} {depth : Int} {mode : Mode}

/-! ## Functions -/

/-- the captured cells -/
theorem reaches_pushed {pc : Nat} {σ : Store} {captures : List String} {c : Code Op} (hp : Placed image pc c)
    (hc : Pushed ρ captures c) (ha : w.layout.Agrees image σ) (hs : Scoped low w env ρ depth) :
    ∃ as, as.length = captures.length ∧ image.Reaches ⟨pc, w.mem⟩ ⟨pc + c.length, w.mem.pushes as⟩ ∧
      ∀ (i : Nat) (x : String), captures[i]? = some x →
        ∃ q, as[i]? = some (address q) ∧ w.layout.place (env.variable x) = some q := by
  induction hc generalizing w pc depth with
  | nil => exact ⟨[], rfl, .refl _, fun i x hi => by simp at hi⟩
  | @cons x i captures c hx _ ih =>
    obtain ⟨b, hb, rfl⟩ := hx
    obtain ⟨q, hq, hpush⟩ := reaches_storage hp.1 ha (hs.finds x b hb)
    obtain ⟨as, hlength, hreach, hcells⟩ := ih (w := w.push (address q)) hp.2 ha (hs.push _)
    refine ⟨address q :: as, by simp [hlength], ?_, fun i y hi => ?_⟩
    · rw [List.length_cons, ← Nat.add_assoc, Nat.add_right_comm]
      exact hpush.trans hreach
    · cases i with
      | zero =>
        obtain rfl : x = y := by simpa using hi
        exact ⟨q, rfl, hq⟩
      | succ i => exact hcells i y (by simpa using hi)

theorem computes_function {params locals captures : List String} {body : Expr} {pushed : Code Op} {label : Label}
    {entry : Nat} (hpushed : Pushed ρ captures pushed) (ht : image.target label = .ok entry)
    (hem : EmitsFunction image params locals captures body entry) (hs : Scoped low w env ρ depth) :
    (setting image low).Computes image k w []
      (pushed ++ [.own (.mkvec captures.length), .own (.mkfunval label), .own (.mkind .function)] ++ mode.unbox)
      (pure (.function ⟨params, locals, body, env⟩)) (Result image low mode) := by
  refine Setting.computes_of_reaches fun pc σ hp ha => ?_
  simp only [placed_append, placed_cons, placed_nil, and_true, List.length_append, List.length_cons, List.length_nil,
    Nat.zero_add, ← Nat.add_assoc, and_assoc] at hp ⊢
  obtain ⟨hpush, hvec, hfun, hind, hunbox⟩ := hp
  obtain ⟨as, hlength, hreach, hcells⟩ := reaches_pushed hpush hpushed ha hs
  rw [← hlength] at hvec
  -- the vector of captured cells, and the function that points at it
  have hg₁ := Layout.Agrees.grows_block ha hs.low_le (as.length :: as)
  have ha₁ := Layout.Agrees.block ha (as.length :: as)
  have hlow₁ := hs.low_le.trans hg₁.size
  have hg₂ := ha₁.grows_block hlow₁ [Image.base + (entry : Nat), address w.layout.heap.words.size]
  have ha₂ := ha₁.block [Image.base + (entry : Nat), address w.layout.heap.words.size]
  have hlow₂ := hlow₁.trans hg₂.size
  have hh : ((w.layout.block (as.length :: as)).block [Image.base + (entry : Nat), address w.layout.heap.words.size]).Holds
      image (address (w.layout.block (as.length :: as)).heap.words.size) Tag.function.word
      (.function ⟨params, locals, body, env⟩) := by
    refine ⟨rfl, _, _, entry, captures, rfl, Layout.fixed_block _ _ 0, Layout.fixed_block _ _ 1, hem, fun i x hx => ?_⟩
    obtain ⟨q, hq, hplace⟩ := hcells i x hx
    refine ⟨q, hplace, hg₂.fixed _ _ ?_⟩
    rw [Nat.add_assoc, Nat.add_comm 1, Layout.fixed_block]
    exact hq
  have hfresh := ha₂.fresh_append hlow₂ hh
  have hg₃ := Layout.grows_append hlow₂
    [address (w.layout.block (as.length :: as)).heap.words.size, Tag.function.word]
  obtain ⟨a, hv, hread⟩ := reaches_unbox (w := w.on _) hunbox (ha₂.append _) hfresh
  refine ⟨_, σ, w.on _, [a], rfl, World.leads_on ((hg₁.trans hg₂).trans hg₃), ha₂.append _, ⟨a, rfl, hv⟩, ?_⟩
  exact (((hreach.trans (moves_mkvec as hvec).reaches).trans (moves_mkfunval hfun ht).reaches).trans
    (moves_mkind hind).reaches).trans hread

/-! ## Bodies -/

/-- storing 0 where 0 is changes nothing -/
theorem reaches_zeros {pc : Nat} {σ : Store} (bindings : List Binding)
    (hp : Placed image pc (bindings.flatMap fun b => storage b :: Mode.zero .value ++ [.own .store, .pop]))
    (ha : w.layout.Agrees image σ) (hlow : low ≤ w.layout.heap.words.size)
    (hb : ∀ b ∈ bindings, ∃ x, Located w b x ∧ σ.value x = .int 0) :
    ∃ L, w.layout.Grows low L ∧ L.Agrees image σ ∧ image.Reaches ⟨pc, w.mem⟩ ⟨pc + (bindings.flatMap fun b =>
      storage b :: Mode.zero .value ++ [.own .store, .pop]).length, (w.on L).mem⟩ := by
  induction bindings generalizing w pc with
  | nil => exact ⟨w.layout, .refl low _, ha, .refl _⟩
  | cons b rest ih =>
    rw [List.flatMap_cons, List.cons_append, List.cons_append, placed_cons, List.append_assoc, Mode.zero,
      List.append_assoc, List.singleton_append, placed_cons, placed_append, List.cons_append, placed_cons,
      List.cons_append, placed_cons, List.nil_append] at hp
    obtain ⟨hpush, hload, hbox, hstore, hpop, hrest⟩ := hp
    obtain ⟨x, hx, hzero⟩ := hb b List.mem_cons_self
    obtain ⟨q, hq, hreach⟩ := reaches_storage hpush ha hx
    obtain ⟨L₁, a, hg₁, ha₁, hv, hreach₁⟩ := reaches_box (n := 0) (w := w.push (address q)) hbox ha hlow rfl
    obtain ⟨L₂, hg₂, ha₂, -, hreach₂⟩ := reaches_store (w := w.on L₁) hstore ha₁ (hg₁.place _ _ hq)
      (hv.of_layout rfl)
    rw [Store.write_self hzero] at ha₂
    have hg := hg₁.trans hg₂
    obtain ⟨L, hg', ha', hreach'⟩ := ih (w := w.on L₂) hrest ha₂ (hlow.trans hg.size) fun b hb' => by
      obtain ⟨y, hy, hzero⟩ := hb b (List.mem_cons_of_mem _ hb')
      exact ⟨y, hy.leads (World.leads_on hg), hzero⟩
    refine ⟨L, hg.trans hg', ha', ?_⟩
    have hlength : pc + 1 + 1 + (Mode.box .value).length + 1 + 1 + (rest.flatMap fun b =>
        storage b :: Mode.zero .value ++ [.own .store, .pop]).length = pc + ((b :: rest).flatMap fun b =>
        storage b :: Mode.zero .value ++ [.own .store, .pop]).length := by
      simp only [List.flatMap_cons, List.length_append, List.length_cons, List.length_nil, Mode.zero]
      omega
    rw [← hlength]
    exact ((((hreach.trans (Image.moves_loadc hload).reaches).trans hreach₁).trans hreach₂).trans
      (Image.moves_pop (m := (w.on L₂).mem) hpop).reaches).trans hreach'

/-- the body of a function, with its locals made first -/
theorem computes_body {params locals captures : List String} {body : Expr} {entry : Nat} (hc : Correct image fuel 0)
    (hem : EmitsFunction image params locals captures body entry)
    (hs : Scoped low w env (functionScope params captures) 0) :
    ∃ c, Placed image entry (c ++ [.own (.ret 0)]) ∧
      (setting image low).Computes image 0 w [] c
        (do Expr.eval convention fuel (← Eval.extend env (locals.map fun name => (name, fun _ => .int 0))) body)
        (Result image low .value) := by
  cases hem with
  | @plain _ _ _ c _ _ he hp => exact ⟨c, hp, hc he (.none _ _) hs⟩
  | @withLocals _ _ _ _ c _ _ hlocals he hp =>
    rw [List.append_assoc [_]] at hp
    refine ⟨_, hp, computes_block hlocals hs fun w' env' pc σ hs' hzero hplaced ha' => ?_⟩
    simp only [zero_add] at hs'
    rw [placed_append] at hplaced
    obtain ⟨L, hg, ha₁, hreach⟩ := reaches_zeros (numbered .blockLocal 1 locals) hplaced.1 ha' hs'.low_le
      fun b hb => by
        have hname : b.name ∈ locals := by
          rw [← map_name_numbered .blockLocal 1 locals]
          exact List.mem_map_of_mem hb
        refine ⟨env'.variable b.name, hs'.finds b.name b ?_, hzero b.name hname⟩
        rw [Scope.extend_of_mem _ (by rwa [map_name_numbered]) hb]
    have hl := World.leads_on hg
    rw [List.length_append, ← Nat.add_assoc]
    refine Follows.of_reaches hreach ((hc he (.none _ _) (hs'.leads hl) _ σ hplaced.2 ha₁).imp fun _ _ _ hq => ?_)
    exact Setting.post_of_leads hl hq

/-! ## Calls -/

/-- every argument leaves a new cell, and the cells lie one above the other -/
theorem computes_arguments {args : List Expr} {c : Code Op} (hc : Correct image fuel k)
    (he : EmitsArguments image ρ depth args c) (hb : ∀ e ∈ args, e.Budget fuel k) (hs : Scoped low w env ρ depth) :
    (setting image low).Computes image k w [] c (Eval.forward (Expr.eval convention fuel env) args)
      fun w' vs as => vs.length = args.length ∧ Layout.FreshCells image low w'.layout vs as := by
  induction args generalizing w low c depth with
  | nil =>
    cases he
    exact Setting.computes_nil ⟨rfl, .nil⟩
  | cons arg args ih =>
    cases he with
    | cons he hrest =>
      refine Setting.computes_bind (hc he (hb arg List.mem_cons_self) hs) fun w₁ v bs hl₁ hr => ?_
      obtain ⟨a, rfl, q, rfl, hq⟩ := hr
      intro pc σ hp ha
      have hs₁ := (hs.leads hl₁).raise.push (address q)
      refine (ih hrest (fun e hm => hb e (List.mem_cons_of_mem _ hm)) hs₁ pc σ hp ha).bind fun vs σ' b hq' => ?_
      obtain ⟨w', as, hl, ha', ⟨hlength, hcells⟩, rfl⟩ := hq'
      obtain ⟨w₂, rfl, hl₂, ha₂⟩ := (setting image w₁.layout.heap.words.size).leads_push ha hl ha'
      exact ⟨_, .refl _, w₂, address q :: as, World.Leads.lower hl₂ (hs.leads hl₁).low_le, ha₂,
        ⟨congrArg (· + 1) hlength, .cons (hq.grows hl₂.grows hq.cell.size) hq.cell.size hcells⟩, rfl⟩

/-- the scope of a function over the cells of its arguments and of its captured names -/
theorem Scoped.function {f : FunctionValue} {captures : List String} {first formals gp : Nat}
    (hlow : low ≤ w.layout.heap.words.size) (hnodup : f.params.Nodup) (hgp : w.regs.gp = address gp)
    (hformals : w.regs.formals = address formals) (hfp : w.regs.fp + 1 = w.words.size)
    (hcaptured : ∀ i x, captures[i]? = some x →
      ∃ q, w.layout.place (f.env.variable x) = some q ∧ w.layout.fixed (gp + 1 + i) = some (address q))
    (hparams : ∀ i, i < f.params.length →
      ∃ q, w.layout.place (.cell (first + i)) = some q ∧ w.layout.fixed (formals + 1 + i) = some (address q)) :
    Scoped low w (f.env.cells first f.params) (functionScope f.params captures) 0 := by
  have hold : Resolves (Located w) f.env (Scope.empty.extend (numbered .captured 0 captures)) := by
    intro x b hb
    obtain ⟨hmem, rfl⟩ := Scope.mem_of_extend_empty hb
    obtain ⟨i, hi⟩ := List.mem_iff_getElem?.1 hmem
    obtain ⟨hname, hst, had⟩ := getElem?_numbered hi
    obtain ⟨q, hq, hfixed⟩ := hcaptured i b.name hname
    refine ⟨q, hq, ?_⟩
    rw [Addressed, hst]
    exact ⟨gp, i, hgp, by rw [had, Int.zero_add], hfixed⟩
  have hnew := hold.extend (k := first) (numbered .formal 0 f.params)
    (by rwa [map_name_numbered]) fun i b hb => by
      obtain ⟨hname, hst, had⟩ := getElem?_numbered hb
      obtain ⟨q, hq, hfixed⟩ := hparams i (List.getElem?_eq_some_iff.1 hname).1
      refine ⟨q, hq, ?_⟩
      rw [Addressed, hst]
      exact ⟨formals, i, hformals, by rw [had, Int.zero_add], hfixed⟩
  rw [map_name_numbered] at hnew
  rw [functionScope, Scope.extend_append]
  exact ⟨hlow, by rw [← hfp, Int.add_zero], hnew⟩

theorem nodup_params {params locals captures : List String} {body : Expr} {entry : Nat}
    (h : EmitsFunction image params locals captures body entry) : params.Nodup := by
  cases h with
  | plain h | withLocals h => exact (List.nodup_append.1 h).1

/-- the vector of arguments and the vector of return addresses -/
theorem reaches_vectors {pc : Nat} {σ : Store} {a : Int} {as : List Int} {back : Label} {target : Nat}
    (hvec : image.instrs[pc]? = some (.own (.mkvec as.length)))
    (hload : image.instrs[pc + 1]? = some (.loadc (.addr back))) (ht : image.target back = .ok target)
    (hvec' : image.instrs[pc + 1 + 1]? = some (.own (.mkvec 1))) (ha : w.layout.Agrees image σ) :
    ∃ L v, w.layout.Grows w.layout.heap.words.size L ∧ L.Agrees image σ ∧
      (∀ i b, as[i]? = some b → L.fixed (w.layout.heap.words.size + 1 + i) = some b) ∧
      L.fixed (v + 1) = some (Image.base + target) ∧
      image.Reaches ⟨pc, w.mem.pushes (a :: as)⟩
        ⟨pc + 1 + 1 + 1, (w.on L).mem.pushes [a, address w.layout.heap.words.size, address v]⟩ := by
  have hg₁ := ha.grows_block le_rfl (as.length :: as)
  have ha₁ := ha.block (as.length :: as)
  have hg₂ := ha₁.grows_block hg₁.size [1, Image.base + target]
  refine ⟨_, (w.layout.block (as.length :: as)).heap.words.size, hg₁.trans hg₂, ha₁.block _, fun i b hb => ?_,
    Layout.fixed_block _ _ 1, ?_⟩
  · refine hg₂.fixed _ _ ?_
    rw [Nat.add_assoc, Nat.add_comm 1, Layout.fixed_block]
    exact hb
  · have h₁ := moves_mkvec (m := w.mem.push a) as hvec
    have h₂ := Image.moves_loadAddr (m := (w.on (w.layout.block (as.length :: as))).mem.pushes
      [a, address w.layout.heap.words.size]) hload ht
    have h₃ := moves_mkvec (m := (w.on (w.layout.block (as.length :: as))).mem.pushes
      [a, address w.layout.heap.words.size]) [Image.base + target] hvec'
    exact (h₁.reaches.trans h₂.reaches).trans h₃.reaches

/-- the world in a function that has been called -/
def World.called (w : World) (cell : Int) (regs : Registers) : World := { w with regs }.pushes (frame cell w.regs)

theorem World.mem_called (w : World) (cell : Int) (regs : Registers) :
    (w.called cell regs).mem = inFrame w.mem cell regs := mem_pushes { w with regs } _

/-- **Calls.** From a function's cell and the cells of the arguments, the call leaves what the function gives. -/
theorem follows_call {f : FunctionValue} {vs : List Value} {as : List Int} {q pc : Nat} {σ : Store} {back : Label}
    (hl : image.WellLabelled) (hc : Correct image fuel 0) (harity : f.params.length = vs.length)
    (hp : Placed image pc [.own (.mkvec vs.length), .loadc (.addr back), .own (.mkvec 1), .own .call, .label back])
    (ha : w.layout.Agrees image σ) (hlow : low ≤ w.layout.heap.words.size)
    (hf : w.layout.Fresh image low q (.function f)) (hvs : Layout.FreshCells image low w.layout vs as) :
    Follows image 0 ⟨pc, w.mem.pushes (address q :: as)⟩
      ((setting image low).Post w (pc + 5) (Result image low .value))
      (Eval.apply (Expr.eval convention fuel) f vs σ) := by
  obtain ⟨hvec, hload, hvec', hcall, hback, -⟩ := hp
  rw [← hvs.length_eq] at hvec
  obtain ⟨L₁, v, hg₁, ha₁, helements, hreturn, hreach₁⟩ :=
    reaches_vectors (a := address q) hvec hload (hl _ _ hback) hvec' ha
  -- the cells of the arguments become the cells of the parameters
  obtain ⟨L₂, hheap, hg₂, ha₂, hcells⟩ := ha₁.enter (hvs.grows hg₁)
  have hg := (hg₁.lower hlow).trans hg₂
  have hmem : (w.on L₁).mem = (w.on L₂).mem := by rw [World.mem, World.mem, World.on, World.on, hheap]
  rw [hmem] at hreach₁
  obtain ⟨payload, tag, hpay, -, -, r, gp, entry, captures, rfl, hentry, hgp, hem, hcaptured⟩ :=
    (hf.grows hg₁ hf.cell.size).cell
  rw [← hheap] at hpay
  have hfunction : Scoped low ((w.on L₂).called (address q)
      ⟨address gp, address w.layout.heap.words.size, address v, framePointer (w.on L₂).mem⟩)
      (f.env.cells σ.next f.params) (functionScope f.params captures) 0 := by
    refine Scoped.function (hlow.trans hg.size) (nodup_params hem) rfl rfl ?_ (fun i x hx => ?_) fun i hi => ?_
    · simp [World.called, World.pushes, frame, framePointer, World.mem, add_assoc]
    · obtain ⟨p, hp, hfixed⟩ := hcaptured i x hx
      exact ⟨p, hg₂.place _ _ hp, hg₂.fixed _ _ hfixed⟩
    · obtain ⟨p, hp, hplace⟩ := hcells i (harity ▸ hi)
      exact ⟨p, hplace, hg₂.fixed _ _ (helements i _ hp)⟩
  obtain ⟨c, hplaced, hbody⟩ := computes_body hc hem hfunction
  have hreach₂ : image.Moves ⟨_, (w.on L₂).mem.pushes [address q, address w.layout.heap.words.size, address v]⟩ _ :=
    moves_call hcall (lt_size_of_placed hplaced) hpay (ha₂.fixed _ _ (hg₂.fixed _ _ hentry))
      (ha₂.fixed _ _ (hg₂.fixed _ _ hgp))
  rw [← World.mem_called] at hreach₂
  rw [placed_append, placed_cons] at hplaced
  refine Follows.of_reaches (hreach₁.trans hreach₂.reaches) ?_
  rw [Eval.apply_eq _ harity]
  refine (hbody entry _ hplaced.1 ha₂).onward fun result σ' b hq => ?_
  obtain ⟨⟨_, _, L₃⟩, bs, ⟨hg₃, rfl, rfl⟩, ha₃, ⟨a, rfl, hv⟩, rfl⟩ := hq
  have hret : image.Moves ⟨entry + c.length, (inFrame (w.on L₃).mem (address q)
      ⟨address gp, address w.layout.heap.words.size, address v, framePointer (w.on L₃).mem⟩).push a⟩ _ :=
    moves_ret hplaced.2.1 (Array.getElem?_eq_some_iff.1 hback).1
      (ha₃.fixed _ _ (hg₃.fixed _ _ (hg₂.fixed _ _ hreturn)))
  rw [← World.mem_called] at hret
  exact ⟨_, hret.reaches.trans (Image.moves_label hback).reaches, w.on L₃, [a], World.leads_on (hg.trans hg₃), ha₃,
    ⟨a, rfl, hv.of_layout rfl⟩, rfl⟩

theorem computes_call {callee : Expr} {args : List Expr} {target pushed : Code Op} {back : Label}
    (hl : image.WellLabelled) (hc : Correct image fuel 0) (hcallee : Emits image ρ depth .value callee target)
    (hargs : EmitsArguments image ρ (depth + 1) args pushed) (hs : Scoped low w env ρ depth) :
    (setting image low).Computes image 0 w []
      (target ++ pushed ++ [.own (.mkvec args.length), .loadc (.addr back), .own (.mkvec 1), .own .call, .label back] ++
        mode.unbox)
      (Expr.eval convention (fuel + 1) env (.call callee args)) (Result image low mode) := by
  rw [List.append_assoc, List.append_assoc]
  refine Setting.computes_bind (hc hcallee (.none _ _) hs) fun w₁ v bs hl₁ hr => ?_
  obtain ⟨a, rfl, q, rfl, hq⟩ := hr
  cases v with
  | int n => exact fun _ _ _ _ => trivial
  | function f =>
    have hs₁ := hs.leads hl₁
    by_cases harity : f.params.length = args.length
    · -- the function's cell lies below all that the arguments change
      have harguments := computes_lower (fun w' vs as => vs.length = args.length ∧
          Layout.FreshCells image low w'.layout vs as ∧ w'.layout.Fresh image low q (.function f)) hs₁.low_le
        (computes_arguments hc hargs (fun _ _ => .none _ _) (hs₁.raise.push (address q)))
        fun w' vs as hl' h => ⟨h.1, h.2.lower hs₁.low_le, hq.grows hl'.grows hq.cell.size⟩
      simp only [Eval.callee, if_pos harity, pure_bind]
      refine Setting.computes_bind harguments fun w₂ vs as hl₂ h => ?_
      obtain ⟨hlength, hcells, hf⟩ := h
      intro pc σ hp ha
      rw [placed_append] at hp
      rw [← hlength] at hp harity
      refine (follows_call hl hc harity hp.1 ha (hs₁.leads hl₂).low_le hf hcells).onward fun v σ' b hq' => ?_
      obtain ⟨w₃, bs, hl₃, ha₃, ⟨a, rfl, p, rfl, hp'⟩, rfl⟩ := hq'
      obtain ⟨a, hv, hread⟩ := reaches_unbox hp.2 ha₃ hp'
      rw [List.length_append, ← Nat.add_assoc]
      exact ⟨_, hread, w₃, [a], hl₃, ha₃, ⟨a, rfl, hv⟩, rfl⟩
    · simp only [Eval.callee, if_neg harity]
      exact fun _ _ _ _ => trivial

end ThreeMachines.Vector
