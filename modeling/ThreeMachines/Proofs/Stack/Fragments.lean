/-
The code of the stack machine, one kind of expression after the other.

`Correct image globals fuel k` says that the code of every expression follows its evaluation with this fuel. The lemmas
here say of operators, assignments, sequences and blocks that they follow their evaluation if their parts do.
-/
import ThreeMachines.Proofs.Stack.World

namespace ThreeMachines.Stack

/-- arguments are evaluated from the last to the first, and the callee after them -/
abbrev convention : Convention := .usual .reversed

/-- one word that shows the value -/
abbrev Result (image : Image Op) (globals : List String) : World → Value → List Int → Prop :=
  (setting image globals).Single fun _ => Shown image globals

/-- the code of every expression follows its evaluation with this fuel -/
def Correct (image : Image Op) (globals : List String) (fuel k : Nat) : Prop :=
  ∀ ⦃w env ρ depth e c⦄, Emits globals ρ depth e c → e.Budget fuel k → Outer env ρ e → Scoped globals w env ρ depth →
    (setting image globals).Computes image k w [] c (e.eval convention fuel env) (Result image globals)

variable {image : Image Op} {globals : List String} {k fuel : Nat} {w : World} {env : Env} {ρ : Scope} {depth : Int}

/-! ## Numbers -/

theorem computes_number {n : Int} (hn : isWord n = true) :
    (setting image globals).Computes image k w [] [.loadc (.int n)] (pure (.int n)) (Result image globals) :=
  Setting.computes_cons _ (fun _ h => Image.moves_loadc h) (Setting.computes_nil ⟨n, rfl, rfl, hn⟩)

theorem computes_unary {op : UnaryOp} {operand : Expr} {c : Code Op} (hc : Correct image globals fuel k)
    (he : Emits globals ρ depth operand c) (hb : operand.Budget fuel k) (ho : Outer env ρ operand)
    (hs : Scoped globals w env ρ depth) :
    (setting image globals).Computes image k w [] (c ++ [.unary op])
      (Expr.eval convention (fuel + 1) env (.unary op operand)) (Result image globals) := by
  refine Setting.computes_bind_word (hc he hb ho hs) (fun _ _ _ => id) fun w' n hl _ => ?_
  refine Setting.computes_cons _ (fun pc h => ?_) (Setting.computes_nil ⟨_, rfl, rfl, isWord_unary op n⟩)
  exact Image.moves_unary (m := w'.mem) h

theorem computes_binary {op : BinaryOp} {lhs rhs : Expr} {left right : Code Op} (hc : Correct image globals fuel k)
    (hel : Emits globals ρ depth lhs left) (her : Emits globals ρ (depth + 1) rhs right) (hbl : lhs.Budget fuel k)
    (hbr : rhs.Budget fuel k) (hol : Outer env ρ lhs) (hor : Outer env ρ rhs) (hs : Scoped globals w env ρ depth) :
    (setting image globals).Computes image k w [] (left ++ right ++ [.binary op])
      (Expr.eval convention (fuel + 1) env (.binary op lhs rhs)) (Result image globals) := by
  rw [List.append_assoc]
  refine Setting.computes_bind_word (hc hel hbl hol hs) (fun _ _ _ => id) fun w₁ m hl₁ hm => ?_
  refine Setting.computes_bind_word (hc her hbr hor ((hs.leads hl₁).push m)) (fun _ _ _ => id) fun w₂ n hl₂ _ => ?_
  exact Setting.computes_binary fun r hr => Setting.computes_nil ⟨r, rfl, rfl, isWord_binary hm hr⟩

/-! ## Variables -/

theorem computes_var {name : String} {b : Binding} (hb : ρ.over (globalScope globals) name = some b)
    (ho : Outer env ρ (.var name)) (hs : Scoped globals w env ρ depth) :
    (setting image globals).Computes image k w [] ([push b] ++ [.own .load]) (Eval.read (env.variable name))
      (Result image globals) := by
  refine Setting.computes_of_reaches fun pc σ hp ha => ?_
  obtain ⟨i, hi, hpush⟩ := moves_push (m := w.mem) hp.1 rfl (hs.located ho (by simp [Expr.uses]) hb)
  obtain ⟨a, hword, hv⟩ := World.Agrees.holds ha _ i hi
  exact ⟨_, σ, w, [a], rfl, .refl w, ha, ⟨a, rfl, hv⟩, hpush.reaches.trans (moves_load hp.2.1 hword).reaches⟩

/-- a value that is stored, and stays on top -/
theorem reaches_store {pc i : Nat} {σ : Store} {x : Variable} {v : Value} {a : Int}
    (h : image.instrs[pc]? = some (.own .store)) (ha : w.Agrees image globals σ) (hx : w.place x = some i)
    (hv : Shown image globals v a) :
    World.Leads w (w.write i a) ∧ (w.write i a).Agrees image globals (σ.write x v) ∧
      image.Reaches ⟨pc, (w.mem.push a).push (wordSize * i)⟩ ⟨pc + 1, (w.write i a).mem.push a⟩ :=
  ⟨World.leads_write hx a, ha.write hx hv, (moves_store (m := w.mem) h (ha.lt_size hx)).reaches⟩

theorem computes_assign {name : String} {b : Binding} {value : Expr} {pushed : Code Op}
    (hc : Correct image globals fuel k) (hb : ρ.over (globalScope globals) name = some b)
    (he : Emits globals ρ depth value pushed) (hbud : value.Budget fuel k) (ho : Outer env ρ (.assign name value))
    (hs : Scoped globals w env ρ depth) :
    (setting image globals).Computes image k w [] (pushed ++ [push b] ++ [.own .store])
      (Expr.eval convention (fuel + 1) env (.assign name value)) (Result image globals) := by
  rw [List.append_assoc]
  have hvalue := ho.child (show value ∈ _ by simp [Expr.children]) rfl
  refine Setting.computes_bind (hc he hbud hvalue hs) fun w₁ v bs hl₁ hr => ?_
  obtain ⟨a, rfl, hv⟩ := hr
  refine Setting.computes_of_reaches fun pc σ hp ha => ?_
  obtain ⟨i, hi, hpush⟩ := moves_push (m := w₁.mem.push a) hp.1 rfl ((hs.leads hl₁).located ho (by simp [Expr.uses]) hb)
  obtain ⟨hl₂, ha₂, hstore⟩ := reaches_store hp.2.1 ha hi hv
  exact ⟨v, _, _, [a], rfl, hl₂, ha₂, ⟨a, rfl, hv⟩, hpush.reaches.trans hstore⟩

/-! ## Sequences, branches and loops -/

theorem computes_sequence {items : List Expr} {c : Code Op} (hc : Correct image globals fuel k)
    (he : EmitsSequence globals ρ depth items c) (hb : ∀ e ∈ items, e.Budget fuel k) (ho : ∀ e ∈ items, Outer env ρ e)
    (hs : Scoped globals w env ρ depth) (last : Value) :
    (setting image globals).Computes image k w [] c (Eval.items (Expr.eval convention fuel env) last items)
      (Result image globals) := by
  induction items generalizing w c last with
  | nil => nomatch he
  | cons item items ih =>
    have hitem := hb item List.mem_cons_self
    have hitem' := ho item List.mem_cons_self
    cases he with
    | last he =>
      have h := hc he hitem hitem' hs
      rwa [← bind_pure (Expr.eval convention fuel env item)] at h
    | cons he hrest =>
      exact Setting.computes_drop (hc he hitem hitem' hs) fun w' v hl =>
        ih hrest (fun e hm => hb e (List.mem_cons_of_mem _ hm)) (fun e hm => ho e (List.mem_cons_of_mem _ hm))
          (hs.leads hl) v

theorem computes_optional {e : Option Expr} {c : Code Op} (hc : Correct image globals fuel k)
    (he : EmitsOptional globals ρ depth e c) (hb : ∀ part ∈ e.toList, part.Budget fuel k)
    (ho : ∀ part ∈ e.toList, Outer env ρ part) (hs : Scoped globals w env ρ depth) :
    (setting image globals).Computes image k w [] c
      (match e with
        | some e => Expr.eval convention fuel env e
        | none => pure (.int 0)) (Result image globals) := by
  cases he with
  | none => exact computes_number rfl
  | some he => exact hc he (hb _ (by simp)) (ho _ (by simp)) hs

/-- a number for a test -/
theorem computes_test {e : Expr} {c : Code Op} (hc : Correct image globals fuel k) (he : Emits globals ρ depth e c)
    (hb : e.Budget fuel k) (ho : Outer env ρ e) (hs : Scoped globals w env ρ depth) :
    (setting image globals).Computes image k w [] c (do Eval.word (← Expr.eval convention fuel env e))
      ((setting image globals).Number (isWord · = true)) := by
  refine (hc he hb ho hs).word fun w' n bs hr => ?_
  obtain ⟨_, rfl, rfl, hn⟩ := hr
  exact ⟨rfl, hn⟩

/-- a number for a test over the value of the last pass -/
theorem computes_over {e : Expr} {c : Code Op} {v : Value} {a : Int} (hc : Correct image globals fuel k)
    (he : Emits globals ρ (depth + 1) e c) (hb : e.Budget fuel k) (ho : Outer env ρ e)
    (hs : Scoped globals w env ρ depth) (hv : Shown image globals v a) :
    (setting image globals).Computes image k w [a] c (do Eval.word (← Expr.eval convention fuel env e))
      ((setting image globals).Kept (isWord · = true) (fun _ => Shown image globals) v a) :=
  Setting.computes_over (P := fun _ => Shown image globals) (fun _ _ => hv) (computes_test hc he hb ho (hs.push a))

theorem computes_ite {cond thenBranch : Expr} {elseBranch : Option Expr} {start thenLabel elseLabel stop : Label}
    {cc tc ec : Code Op} (hl : image.WellLabelled) (hc : Correct image globals fuel k)
    (hcond : Emits globals ρ depth cond cc) (hthen : Emits globals ρ depth thenBranch tc)
    (helse : EmitsOptional globals ρ depth elseBranch ec)
    (hb : ∀ part ∈ (Expr.ite cond thenBranch elseBranch).children, part.Budget fuel k)
    (ho : ∀ part ∈ (Expr.ite cond thenBranch elseBranch).children, Outer env ρ part)
    (hs : Scoped globals w env ρ depth) :
    (setting image globals).Computes image k w [] (Skeleton.ifThenElse start thenLabel elseLabel stop cc tc ec)
      (Expr.eval convention (fuel + 1) env (.ite cond thenBranch elseBranch)) (Result image globals) := by
  show (setting image globals).Computes image k w [] _ (Expr.eval convention fuel env cond >>= fun v =>
    Eval.word v >>= fun n => if n ≠ 0 then _ else _) _
  rw [← bind_assoc]
  have helse' : ∀ part ∈ elseBranch.toList, part ∈ (Expr.ite cond thenBranch elseBranch).children :=
    fun part hp => by simp [Expr.children, Option.mem_toList.1 hp]
  exact Setting.computes_ifThenElse hl
    (computes_test hc hcond (hb _ (by simp [Expr.children])) (ho _ (by simp [Expr.children])) hs)
    (fun w' hl' => hc hthen (hb _ (by simp [Expr.children])) (ho _ (by simp [Expr.children])) (hs.leads hl'))
    (fun w' hl' => computes_optional hc helse (fun part hp => hb part (helse' part hp))
      (fun part hp => ho part (helse' part hp)) (hs.leads hl'))

/-! ## Blocks -/

theorem getElem?_blockBindings {names : List String} {i : Nat} {b : Binding} (h : (blockBindings depth names)[i]? = some b) :
    names[i]? = some b.name ∧ b.storage = .blockLocal ∧ b.address = offsetAt (depth + i) := by
  induction names generalizing depth i with
  | nil => simp [blockBindings] at h
  | cons name names ih =>
    cases i with
    | zero =>
      obtain rfl : ⟨name, .blockLocal, offsetAt depth⟩ = b := by simpa [blockBindings] using h
      simp
    | succ i =>
      obtain ⟨hi, hs, ha⟩ := ih (by simpa [blockBindings] using h)
      refine ⟨hi, hs, ?_⟩
      rw [ha]
      congr 1
      push_cast
      ring

/-- the world in a block of variables that hold 0 -/
def World.block (w : World) (first count : Nat) : World :=
  ⟨w.words ++ (List.replicate count 0).toArray, w.fp, w.placing first count (w.words.size + ·)⟩

theorem World.Agrees.block {σ : Store} (h : w.Agrees image globals σ) (count : Nat) :
    World.Opens w (w.block σ.next count) ∧
      (w.block σ.next count).Agrees image globals (σ.cells ((List.replicate count (.int 0)).map fun v _ => v)) := by
  refine ⟨h.opens fun j _ => Nat.le_add_right _ _, ?_⟩
  have henter := h.enter (List.replicate count 0) w.fp (List.replicate count (.int 0)) _
    (fun j k _ _ hjk => Nat.add_left_cancel hjk) fun j v hv => by
      rw [List.getElem?_replicate] at hv
      split at hv
      · rename_i hj
        cases hv
        exact ⟨j, 0, rfl, by simp [hj], rfl, rfl⟩
      · cases hv
  rwa [List.length_replicate] at henter

theorem Scoped.block {names : List String} {first : Nat} (hs : Scoped globals w env ρ depth) (hnodup : names.Nodup)
    (ho : World.Opens w (w.block first names.length)) :
    Scoped globals (w.block first names.length) (env.cells first names) (ρ.extend (blockBindings depth names))
      (depth + names.length) := by
  have hsize := hs.size
  have hold : ∀ b x, Located w b x → Located (w.block first names.length) b x := by
    rintro b x ⟨i, hi, ha⟩
    exact ⟨i, ho.place x i hi, ha⟩
  refine ⟨?_, ?_, fun x b hb => hold b _ (hs.globals x b hb)⟩
  · simp only [World.block, Array.size_append, List.size_toArray, List.length_replicate]
    push_cast
    linarith
  · have hnew := (hs.finds.imp hold).extend (k := first) (blockBindings depth names)
      (by rwa [map_name_blockBindings]) fun i b hb => by
        obtain ⟨hi, hst, had⟩ := getElem?_blockBindings hb
        refine ⟨w.words.size + i, World.placing_new (List.getElem?_eq_some_iff.1 hi).1, ?_⟩
        rw [hst, if_neg (by decide), had, offsetAt]
        simp only [World.block]
        push_cast
        linarith
    rwa [map_name_blockBindings] at hnew

/-- **Blocks.** Code over new variables that hold 0, which are dropped at the end -/
theorem computes_block {names : List String} {c : Code Op} {f : Env → Eval Value} (hnodup : names.Nodup)
    (hs : Scoped globals w env ρ depth)
    (hc : ∀ w' first, Scoped globals w' (env.cells first names) (ρ.extend (blockBindings depth names))
      (depth + names.length) →
      (setting image globals).Computes image k w' [] c (f (env.cells first names)) (Result image globals)) :
    (setting image globals).Computes image k w []
      ([.own (.alloc (wordSize * names.length))] ++ c ++ [.own (.slide (wordSize * names.length) wordSize)])
      (Eval.extend env (names.map fun name => (name, fun _ => .int 0)) >>= f) (Result image globals) := by
  intro pc σ hp ha
  simp only [placed_append, placed_cons, placed_nil, and_true, List.length_append, List.length_cons, List.length_nil,
    Nat.zero_add, ← Nat.add_assoc, and_assoc] at hp ⊢
  obtain ⟨halloc, hbody, hslide⟩ := hp
  obtain ⟨hopens, hagrees⟩ := World.Agrees.block ha names.length
  rw [Eval.extend_zeros]
  refine Follows.of_reaches (moves_alloc (m := w.mem) halloc).reaches ?_
  have hfollows := hc _ _ (hs.block hnodup hopens) (pc + 1) _ hbody hagrees
  rw [Memory.pushes_eq]
  refine hfollows.onward fun v σ' b hq => ?_
  obtain ⟨w', bs, hl, ha', ⟨a, rfl, hv⟩, rfl⟩ := hq
  obtain ⟨hl', ha''⟩ := hopens.close ha hl ha'
  -- what lies over the closed world are the words of the variables
  have hwords := World.mem_closed w w'
  have hlength : (w'.words.toList.drop w.words.size).length = names.length := by
    simp [hl.size, World.block]
  have hfp : w'.fp = w.fp := hl.fp
  rw [← hlength] at hslide
  have hslide' := moves_slide (m := (w.closed w').mem) (a := a) _ hslide
  rw [← hwords, ← hfp] at hslide'
  exact ⟨_, hslide'.reaches, w.closed w', [a], hl', ha'', ⟨a, rfl, hv⟩, rfl⟩

theorem computes_initial {bindings : List (String × Expr)} {place : Int} {c : Code Op}
    (hc : Correct image globals fuel k) (he : EmitsInitial globals ρ depth place bindings c)
    (hb : ∀ b ∈ bindings, b.2.Budget fuel k) (ho : ∀ b ∈ bindings, Outer env ρ b.2)
    (hρ : ∀ b ∈ blockBindings place (bindings.map Prod.fst), ρ b.name = some b) (hs : Scoped globals w env ρ depth) :
    (setting image globals).Computes image k w [] c (Eval.bindings (Expr.eval convention fuel env) env bindings)
      fun _ _ bs => bs = [] := by
  induction bindings generalizing w c place with
  | nil =>
    cases he
    exact Setting.computes_nil rfl
  | cons binding rest ih =>
    obtain ⟨name, value⟩ := binding
    cases he with
    | @cons _ _ _ _ _ _ pushed values hvalue hrest =>
      rw [List.append_assoc]
      refine Setting.computes_bind (hc hvalue (hb _ List.mem_cons_self) (ho _ List.mem_cons_self) hs)
        fun w₁ v bs hl₁ hr => ?_
      obtain ⟨a, rfl, hv⟩ := hr
      intro pc σ hp ha
      have hs₁ := hs.leads hl₁
      have hlocated := hs₁.finds name _ (hρ _ List.mem_cons_self)
      obtain ⟨i, hi, hpush⟩ := moves_push (b := ⟨name, .blockLocal, offsetAt place⟩) (m := w₁.mem.push a) hp.1 rfl hlocated
      obtain ⟨hl₂, ha₂, hstore⟩ := reaches_store hp.2.1 ha hi hv
      have hrest' := ih hrest (fun b hm => hb b (List.mem_cons_of_mem _ hm)) (fun b hm => ho b (List.mem_cons_of_mem _ hm))
        (fun b hm => hρ b (List.mem_cons_of_mem _ hm)) (hs₁.leads hl₂) _ _ hp.2.2.2 ha₂
      refine Follows.of_reaches ((hpush.reaches.trans hstore).trans
        (Image.moves_pop (m := (w₁.write i a).mem) hp.2.2.1).reaches) ?_
      simp only [List.cons_append, List.nil_append, List.length_cons]
      rw [show pc + (values.length + 1 + 1 + 1) = pc + 1 + 1 + 1 + values.length by omega]
      exact hrest'.imp fun _ _ _ hq => Setting.post_of_leads hl₂ hq

theorem computes_local {bindings : List (String × Expr)} {body : Expr} {values result : Code Op}
    (hc : Correct image globals fuel k) (hnodup : (bindings.map Prod.fst).Nodup)
    (hvalues : EmitsInitial globals (ρ.extend (blockBindings depth (bindings.map Prod.fst))) (depth + bindings.length)
      depth bindings values)
    (hbody : Emits globals (ρ.extend (blockBindings depth (bindings.map Prod.fst))) (depth + bindings.length) body result)
    (hb : ∀ part ∈ (Expr.block bindings body).children, part.Budget fuel k) (ho : Outer env ρ (.block bindings body))
    (hs : Scoped globals w env ρ depth) :
    (setting image globals).Computes image k w []
      ([.own (.alloc (wordSize * bindings.length))] ++ values ++ result ++
        [.own (.slide (wordSize * bindings.length) wordSize)])
      (Expr.eval convention (fuel + 1) env (.block bindings body)) (Result image globals) := by
  have hitems : (bindings.map fun b => (b.1, fun i => Value.int (convention.fresh i))) =
      (bindings.map Prod.fst).map fun name => (name, fun _ => .int 0) := by
    rw [List.map_map]
    rfl
  have hlength : (bindings.map Prod.fst).length = bindings.length := List.length_map ..
  have hnames := map_name_blockBindings depth (bindings.map Prod.fst)
  show (setting image globals).Computes image k w [] _
    (Eval.extend env (bindings.map fun b => (b.1, fun i => .int (convention.fresh i))) >>= _) _
  rw [hitems, ← hlength, List.append_assoc [_]]
  refine computes_block hnodup hs fun w' first hs' => ?_
  have ho' : ∀ part ∈ (Expr.block bindings body).children, Outer (env.cells first (bindings.map Prod.fst))
      (ρ.extend (blockBindings depth (bindings.map Prod.fst))) part := by
    intro part hpart
    have := ho.extend (k := first) hpart hnames.symm
    rwa [hnames] at this
  rw [hlength] at hs'
  refine Setting.computes_bind (computes_initial hc hvalues
    (fun b hm => hb _ (List.mem_cons_of_mem _ (List.mem_map_of_mem hm)))
    (fun b hm => ho' _ (List.mem_cons_of_mem _ (List.mem_map_of_mem hm)))
    (fun b hm => Scope.extend_of_mem _ (by rwa [hnames]) hm) hs') fun w'' _ bs hl hr => ?_
  rw [hr]
  exact hc hbody (hb _ (by simp [Expr.children])) (ho' _ (by simp [Expr.children])) (hs'.leads hl)

end ThreeMachines.Stack
