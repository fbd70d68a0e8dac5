/-
Blocks on the closure machine.

The places of the variables are made first and dropped at the end. In between the values are stored one after the other
(`follows_values`), each of them using only variables that have their values, or whatever lies there if there are no
functions. If all values are functions they may use each other, so their places show them from the start, and their pairs
are filled one after the other (`Tying.reaches`). `computes_local` is the whole block.
-/
import ThreeMachines.Proofs.Closure.Places

namespace ThreeMachines.Closure

open Heap (address)

variable {image : Image Op} {globals : List String} {junk : Bool} {k fuel : Nat} {w w' : World} {σ σ' : Store}
  {v : Value} {a : Int} {depth : Int} {env : Env} {ρ : Scope} {bindings : List (String × Expr)} {body : Expr}

/-! ## Places that are made and dropped -/

theorem getElem?_blockBindings {names : List String} {i : Nat} {b : Binding}
    (h : (blockBindings depth names)[i]? = some b) :
    names[i]? = some b.name ∧ b.storage = .blockLocal ∧ b.address = depth + i + 1 := by
  induction names generalizing depth i with
  | nil => simp [blockBindings] at h
  | cons name names ih =>
    cases i with
    | zero =>
      obtain rfl : ⟨name, .blockLocal, depth + 1⟩ = b := by simpa [blockBindings] using h
      simp
    | succ i =>
      obtain ⟨hi, hs, ha⟩ := ih (by simpa [blockBindings] using h)
      refine ⟨hi, hs, ?_⟩
      rw [ha]
      push_cast
      ring

/-- the names of a part of a block find their variables, if those that it uses have been put on the stack -/
theorem Filling.inside {ready : Nat → Prop} {part : Expr}
    (h : Filling ready w w' (bindings.map Prod.fst) ((Expr.block bindings body).children.flatMap Expr.captured))
    (hgp : w'.regs = w.regs) (hnodup : (bindings.map Prod.fst).Nodup) (hcopy : (Expr.block bindings body).copyable)
    (hs : Scoped globals junk w depth env ρ (.block bindings body)) (hp : part ∈ (Expr.block bindings body).children)
    (hready : ∀ (j : Nat) x, (bindings.map Prod.fst)[j]? = some x → x ∈ part.uses → ready j) :
    Scoped globals junk w' (depth + bindings.length) (env.cells w.next (bindings.map Prod.fst))
      (ρ.extend (blockBindings depth (bindings.map Prod.fst))) part := by
  have henter := h.enter (blockBindings depth (bindings.map Prod.fst)) (map_name_blockBindings ..) hnodup
    (by rw [List.append_nil]; exact hs.inner hp) (by rw [hgp]) (fun j b hb => ?_) hready
    (fun x _ hc => List.mem_flatMap_of_mem hp hc) fun x hx hassigned hc => ?_
  · rwa [List.length_map] at henter
  · obtain ⟨-, hst, had⟩ := getElem?_blockBindings hb
    exact ⟨.inl hst, had⟩
  · obtain ⟨other, ho, hc⟩ := List.mem_flatMap.1 hc
    exact Expr.not_captured_of_assigned hcopy hx hp hassigned ho hc

/-- the variables of a block are dropped under its value -/
theorem reaches_slide {n pc : Nat} (ha : w.AgreesBut image globals junk (fun _ => False) σ) (hg : World.Grows w w')
    (hregs : w'.regs = w.regs) (hsize : w'.words.size = w.words.size + n)
    (ha' : w'.AgreesBut image globals junk (fun _ => False) σ') (hv : w'.Shown junk v a)
    (hp : image.instrs[pc]? = some (.own (.slide n))) :
    ∃ b, image.Reaches ⟨pc, w'.mem.push a⟩ b ∧
      (setting image globals junk).Post w (pc + 1) (Result image globals junk) v σ' b := by
  obtain ⟨hl, hagrees⟩ := hg.close ha ha'
  have hmem : w'.mem = (World.closed w w').mem.pushes (w'.words.toList.drop w.words.size) := by
    rw [← World.mem_closed, ← hregs]
    rfl
  have hlength : (w'.words.toList.drop w.words.size).length = n := by simp [hsize]
  rw [← hlength] at hp
  refine ⟨_, ?_, World.closed w w', [a], hl, hagrees, ⟨a, rfl, ?_⟩, rfl⟩
  · rw [hmem]
    exact (moves_slide (m := (World.closed w w').mem) _ hp).reaches
  · exact hv

/-! ## Values in order -/

/-- where the values of a block lead: all its variables are on the stack -/
def Filled (image : Image Op) (globals : List String) (junk : Bool) (w₀ : World) (names captured : List String)
    (stop : Nat) (_ : Unit) (σ : Store) (b : Point Registers) : Prop :=
  ∃ w, Filling (fun _ => True) w₀ w names captured ∧ w.regs = w₀.regs ∧
    w.AgreesBut image globals junk (fun _ => False) σ ∧ b = ⟨stop, w.mem⟩

/-- a value does not use the names that have no values yet -/
theorem ready_of_ordered {names : List String} {done j : Nat} {x : String} {b : String × Expr}
    (hnames : names.drop done = (b :: bindings).map Prod.fst) (horder : junk = true ∨ Expr.ordered (b :: bindings))
    (hx : names[j]? = some x) (hu : x ∈ b.2.uses) : j < done ∨ junk = true := by
  refine horder.elim .inr fun ho => .inl ?_
  by_contra hge
  have hmem : x ∈ names.drop done := by
    refine List.mem_of_getElem? (i := j - done) ?_
    rw [List.getElem?_drop, Nat.add_sub_cancel' (Nat.le_of_not_lt hge), hx]
  rw [hnames] at hmem
  have hno := List.all_eq_true.1 (Bool.and_eq_true_iff.1 ho).1 x hmem
  simp [hu] at hno

/-- **Values in order.** Each value is stored after it has been computed. -/
theorem follows_values {names captured : List String} {done pc : Nat} {c : Code Op} {w₀ : World}
    (hc : Correct image globals junk fuel k) (he : EmitsInitial image ρ depth bindings c)
    (hb : ∀ b ∈ bindings, b.2.Budget fuel k) (ht : ∀ b ∈ bindings, Tame junk b.2)
    (hnames : names.drop done = bindings.map Prod.fst) (horder : junk = true ∨ Expr.ordered bindings)
    (hvar : ∀ (j : Nat) x, names[j]? = some x → env.variable x = .cell (w₀.next + j))
    (hlow : ∀ i, i < globals.length → 2 * i < w₀.heap.words.size)
    (hs : ∀ b ∈ bindings, ∀ w done, Progress junk w₀ w names captured done →
      (∀ (j : Nat) x, names[j]? = some x → x ∈ b.2.uses → j < done ∨ junk = true) → Scoped globals junk w depth env ρ b.2)
    (h : Progress junk w₀ w names captured done) (hp : Placed image pc c)
    (ha : w.AgreesBut image globals junk (fun _ => False) σ) :
    Follows image k ⟨pc, w.mem⟩ (Filled image globals junk w₀ names captured (pc + c.length))
      (Eval.bindings (Expr.eval (convention globals.length junk) fuel env) env bindings σ) := by
  induction bindings generalizing w done pc c σ with
  | nil =>
    cases he
    exact ⟨_, .refl _, w, h.finished (by simpa using hnames), h.regs, ha, rfl⟩
  | cons binding rest ih =>
    obtain ⟨name, value⟩ := binding
    have hx : names[done]? = some name := by
      have := congrArg (·[0]?) hnames
      simpa using this
    have hlater : names.drop (done + 1) = rest.map Prod.fst := by
      rw [← List.tail_drop, hnames]
      rfl
    have hn : done + (rest.length + 1) = names.length := by
      have hlt := (List.getElem?_eq_some_iff.1 hx).1
      have hlength := congrArg List.length hnames
      simp only [List.length_drop, List.length_map, List.length_cons] at hlength
      omega
    have horder' : junk = true ∨ Expr.ordered rest := horder.imp_right fun ho => (Bool.and_eq_true_iff.1 ho).2
    have hs' := hs _ List.mem_cons_self w done h fun j x => ready_of_ordered hnames horder
    cases he with
    | @cons _ _ _ _ _ pushed values hvalue hvalues =>
      rw [placed_append] at hp
      obtain ⟨hp, hplaced⟩ := hp
      -- the rest, once the value is in its place
      have hthen := fun (w' : World) (v : Value) (σ₁ : Store) (h' : Progress junk w₀ w' names captured (done + 1))
          (ha' : w'.AgreesBut image globals junk (fun _ => False) (σ₁.write (env.variable name) v)) =>
        ih hvalues (fun b hm => hb b (List.mem_cons_of_mem _ hm)) (fun b hm => ht b (List.mem_cons_of_mem _ hm)) hlater
          horder' (fun b hm => hs b (List.mem_cons_of_mem _ hm)) h' hplaced ha'
      simp only [hvar done name hx, List.length_append, ← Nat.add_assoc] at hthen ⊢
      by_cases hfun : value.isFunction
      · rw [if_pos hfun] at hp hthen ⊢
        obtain rfl := (ht _ List.mem_cons_self).junk_eq_false hfun
        cases fuel with
        | zero =>
          rw [(hb _ List.mem_cons_self).eq_zero]
          exact Image.RunsOn.zero _
        | succ fuel =>
          obtain ⟨w', h', ha', hreach⟩ := h.reaches_tied hx hn hfun hvalue hp (ht _ List.mem_cons_self) hs' ha hlow
          show Follows _ _ _ _ ((Expr.eval _ (fuel + 1) env value >>= fun v => Eval.write (env.variable name) v >>= _) σ)
          rw [eval_literal hfun, pure_bind, hvar done name hx]
          exact Follows.of_reaches hreach (hthen w' _ σ h' ha')
      · rw [if_neg hfun] at hp hthen ⊢
        rw [placed_append] at hp
        refine Follows.bind (hc hvalue (hb _ List.mem_cons_self) (ht _ List.mem_cons_self) hs' pc σ hp.1 ha)
          fun v σ₁ b hq => ?_
        obtain ⟨w₁, bs, hl, ha₁, ⟨a, rfl, hv⟩, rfl⟩ := hq
        obtain ⟨w₂, h₂, ha₂, hreach⟩ := (h.leads hl).reaches_stored hx hn hp.2 ha₁ hv
        rw [hvar done name hx]
        exact Follows.of_reaches hreach (hthen w₂ v σ₁ h₂ ha₂)

/-- without functions a block variable starts as the address of its pair -/
theorem fresh_address {σ : Store} {j : Nat} (ha : w.AgreesBut image globals true (fun _ => False) σ) :
    (convention globals.length true).fresh (w.next + j) = address (w.heap.words.size + 2 * j) := by
  rw [ha.size rfl, Nat.add_assoc, ← Nat.mul_add]
  rfl

/-- without functions the places of a block hold the addresses of their pairs, as their variables do -/
theorem exists_progress_functionFree (names : List String) (ha : w.AgreesBut image globals true (fun _ => False) σ) :
    ∃ w', Progress true w w' names [] 0 ∧
      w'.mem = (w.mem.onHeap (w.heap.append (List.replicate (2 * names.length) 0))).pushes
        (pairs w.heap.words.size names.length) ∧
      w'.AgreesBut image globals true (fun _ => False)
        (σ.cells (names.map fun _ i => .int ((convention globals.length true).fresh i))) := by
  refine ⟨w.opened (pairs w.heap.words.size names.length) (List.replicate (2 * names.length) 0)
    (constants names [] []), ⟨?_, rfl, fun j _ hj => ?_, by simp⟩, ?_, ?_⟩
  · have hf := Filling.of_opened ha (pairs w.heap.words.size names.length)
      (List.replicate (2 * names.length) 0) names [] [] (length_pairs ..) (.inl rfl)
    exact { hf with slot := fun j hj _ => hf.slot j hj trivial, firm := fun j x hx hin _ => hf.firm j x hx hin trivial }
  · refine ⟨by simp [World.opened, World.allocated, hj], by simp [World.opened, World.allocated, hj], fun i hi => ?_,
      fun k hk => ?_, ?_⟩
    · rw [World.opened_slot (by simpa using hj)] at hi
      exact (Option.some.inj hi).symm
    · obtain ⟨i, -, rfl, hi⟩ | hk := World.opened_slot_cases hk
      · omega
      · have := ha.lt_size hk
        omega
    · rw [World.opened_constant (by simpa using hj), constants, List.getElem?_nil, ite_self]
  · rw [Memory.pushes_eq]
    rfl
  · refine ha.opened (by simp) (by simp) (fun j initial hi => ?_) fun j initial v hi hv => ?_
    · obtain ⟨x, hx, rfl⟩ := Option.map_eq_some_iff.1 ((List.getElem?_map ..).symm.trans hi)
      have hj := (List.getElem?_eq_some_iff.1 hx).1
      exact ⟨_, getElem?_pairs _ hj, (fresh_address ha).symm, .inl rfl⟩
    · rw [constants, List.getElem?_nil, ite_self] at hv
      cases hv

/-- with functions the places of a block belong to no variable yet, and nothing is known of their pairs -/
theorem exists_progress_functions (names captured : List String)
    (ha : w.AgreesBut image globals false (fun _ => False) σ) :
    ∃ w', Progress false w w' names captured 0 ∧
      w'.mem = (w.mem.onHeap (w.heap.append (List.replicate (2 * names.length) 0))).pushes
        (pairs w.heap.words.size names.length) ∧
      w'.AgreesBut image globals false (fun _ => False)
        (σ.cells (names.map fun _ i => .int ((convention globals.length false).fresh i))) := by
  refine ⟨w.allocated (pairs w.heap.words.size names.length) (List.replicate (2 * names.length) 0) names.length,
    ⟨⟨w.grows_allocated .., ?_, le_rfl, fun j _ hr => ?_, fun j _ _ _ => ?_, fun j _ _ _ hr => ?_⟩, rfl, fun j _ hj => ?_,
      fun _ j _ hj => ⟨⟨?_, ?_, ?_, ?_⟩, ?_, fun k hk => ?_⟩⟩, ?_, ?_⟩
  · simp [World.allocated]
  · exact absurd hr (by simp)
  · exact ha.constant_new (Nat.le_add_right _ _)
  · exact absurd hr (by simp)
  · refine ⟨Nat.add_lt_add_left hj _, by simp [World.allocated, hj], fun i hi => ?_, fun k hk => ?_,
      ha.constant_new (Nat.le_add_right _ _)⟩
    · have : w.slot (w.next + j) = some i := hi
      rw [ha.slot_new (Nat.le_add_right _ _)] at this
      cases this
    · have := ha.lt_size hk
      omega
  · simp only [World.allocated]
    rw [Array.getElem?_append_right (Nat.le_add_right _ _), Nat.add_sub_cancel_left, List.getElem?_toArray,
      getElem?_pairs _ hj]
  · simp only [World.allocated, Heap.size_append, List.length_replicate]
    omega
  · exact ha.fixed_new (by omega)
  · exact ha.fixed_new (by omega)
  · exact ha.function_new (by omega)
  · have := ha.lt_size hk
    omega
  · rw [Memory.pushes_eq]
    rfl
  · have h := ha.allocated (pairs w.heap.words.size names.length) (List.replicate (2 * names.length) 0)
      (names.map fun _ i => .int ((convention globals.length false).fresh i)) fun h => absurd h Bool.false_ne_true
    rwa [List.length_map] at h

/-- the places of a block, none of which has its value -/
theorem exists_progress {names captured : List String} (ha : w.AgreesBut image globals junk (fun _ => False) σ)
    (hcaptured : junk = true → captured = []) :
    ∃ w', Progress junk w w' names captured 0 ∧
      w'.mem = (w.mem.onHeap (w.heap.append (List.replicate (2 * names.length) 0))).pushes
        (pairs w.heap.words.size names.length) ∧
      w'.AgreesBut image globals junk (fun _ => False)
        (σ.cells (names.map fun _ i => .int ((convention globals.length junk).fresh i))) := by
  cases junk with
  | true =>
    rw [hcaptured rfl]
    exact exists_progress_functionFree names ha
  | false => exact exists_progress_functions names captured ha

/-! ## Functions that use each other -/

/-- a block of functions over `w₀`, of whose pairs the first `done` are filled -/
structure Tying (image : Image Op) (globals : List String) (w₀ w : World) (names captured : List String) (σ : Store)
    (fs : List FunctionValue) (done : Nat) : Prop where
  filling : Filling (fun _ => True) w₀ w names captured
  regs : w.regs = w₀.regs
  agrees : w.AgreesBut image globals false
    (fun p => ∃ j, done ≤ j ∧ j < names.length ∧ p = w₀.heap.words.size + 2 * j) σ
  vacant : ∀ j, done ≤ j → j < names.length → Vacant w₀ w j
  function : ∀ (j : Nat) f, fs[j]? = some f → w.function (w₀.heap.words.size + 2 * j) = some f

/-- the next pair is filled with the function that its value makes -/
theorem Tying.step {names captured : List String} {done n pc : Nat} {c : Code Op} {w₀ : World} {value : Expr}
    {fs : List FunctionValue} (h : Tying image globals w₀ w names captured σ fs done)
    (hfun : value.isFunction) (hvalue : Emits image ρ depth value c) (ht : value.capturesByValue)
    (hf : fs[done]? = some (literal env value)) (hlt : done < names.length) (hn : done + n = names.length)
    (hlow : ∀ i, i < globals.length → 2 * i < w₀.heap.words.size)
    (hs : Scoped globals false w depth env ρ value) (hp : Placed image pc (c ++ [.own (.refill n)])) :
    ∃ w', Tying image globals w₀ w' names captured σ fs (done + 1) ∧
      image.Reaches ⟨pc, w.mem⟩ ⟨pc + c.length + 1, w'.mem⟩ := by
  obtain ⟨hword, hbound, hfirst, hsecond⟩ := h.vacant done le_rfl hlt
  have hsize := h.filling.size
  obtain ⟨w₁, a, b, hl, hwords, ha₁, hmade, hreach⟩ := reaches_refill (n := n) (i := w₀.words.size + done) hfun hvalue hp
    ht hs h.agrees (by omega) hword hbound hfirst hsecond
  have hvacant : ∀ j, done ≤ j → j < names.length → Vacant w₀ w₁ j :=
    fun j hd hj => (h.vacant j hd hj).leads hl (by rw [hwords])
  obtain ⟨-, hbound₁, hfirst₁, hsecond₁⟩ := hvacant done le_rfl hlt
  have hfunction₁ : ∀ (j : Nat) f, fs[j]? = some f → w₁.function (w₀.heap.words.size + 2 * j) = some f :=
    fun j f hj => hl.grows.knows.function _ _ (h.function j f hj)
  have hf₁ := h.filling.leads hl
  refine ⟨_, ⟨{ hf₁ with grows := hf₁.grows.fill (Nat.le_add_right _ _) hfirst₁ hsecond₁ }, hl.regs.trans h.regs, ?_,
    fun j hd hj => (hvacant j (by omega) hj).fill (by omega), hfunction₁⟩, hreach⟩
  refine ha₁.fill hfirst₁ hsecond₁ hbound₁ (fun i hi => by have := hlow i hi; omega) (fun q hq hno => ?_)
    (fun q hq => ?_) fun f hf' => ?_
  · obtain ⟨j, hd, hj, rfl⟩ := hq
    have : j = done := by
      by_contra hne
      exact hno ⟨j, by omega, hj, rfl⟩
    rw [this]
  · obtain ⟨j, hd, hj, rfl⟩ := hq
    exact ⟨j, by omega, hj, rfl⟩
  · rw [hfunction₁ done _ hf, Option.some.injEq] at hf'
    rw [← hf']
    exact hmade

/-- **Functions that use each other.** The places show the functions from the start, and the pairs are filled in order. -/
theorem Tying.reaches {names captured : List String} {done pc : Nat} {c : Code Op} {w₀ : World}
    {fs : List FunctionValue} (h : Tying image globals w₀ w names captured σ fs done)
    (he : EmitsInitial image ρ depth bindings c) (hfun : ∀ b ∈ bindings, b.2.isFunction)
    (ht : ∀ b ∈ bindings, b.2.capturesByValue) (hfs : fs.drop done = bindings.map fun b => literal env b.2)
    (hn : done + bindings.length = names.length) (hlow : ∀ i, i < globals.length → 2 * i < w₀.heap.words.size)
    (hs : ∀ b ∈ bindings, ∀ w, Filling (fun _ => True) w₀ w names captured → w.regs = w₀.regs →
      Scoped globals false w depth env ρ b.2) (hp : Placed image pc c) :
    ∃ w', Tying image globals w₀ w' names captured σ fs names.length ∧
      image.Reaches ⟨pc, w.mem⟩ ⟨pc + c.length, w'.mem⟩ := by
  induction bindings generalizing w done pc c with
  | nil =>
    cases he
    obtain rfl : done = names.length := by simpa using hn
    exact ⟨w, h, .refl _⟩
  | cons binding rest ih =>
    obtain ⟨name, value⟩ := binding
    have hlt : done < names.length := by rw [← hn]; simp
    have hlater : fs.drop (done + 1) = rest.map fun b => literal env b.2 := by
      rw [← List.tail_drop, hfs]
      rfl
    have hf : fs[done]? = some (literal env value) := by
      have := congrArg (·[0]?) hfs
      simpa using this
    cases he with
    | @cons _ _ _ _ _ pushed values hvalue hvalues =>
      have hfunction := hfun _ List.mem_cons_self
      rw [placed_append, if_pos hfunction] at hp
      obtain ⟨hp, hplaced⟩ := hp
      obtain ⟨w₁, htied, hreach⟩ := h.step hfunction hvalue (ht _ List.mem_cons_self) hf hlt hn hlow
        (hs _ List.mem_cons_self w h.filling h.regs) hp
      obtain ⟨w₂, h₂, hreach₂⟩ := ih htied hvalues (fun b hb => hfun b (List.mem_cons_of_mem _ hb))
        (fun b hb => ht b (List.mem_cons_of_mem _ hb)) hlater (by rw [List.length_cons] at hn; omega)
        (fun b hb => hs b (List.mem_cons_of_mem _ hb)) hplaced
      refine ⟨w₂, h₂, ?_⟩
      rw [if_pos hfunction]
      simp only [List.length_append, List.length_singleton, ← Nat.add_assoc] at hreach₂ ⊢
      exact hreach.trans hreach₂

/-- the functions of a block are made one after the other -/
theorem bindings_functions {initials : List (Nat → Value)} (hfun : ∀ b ∈ bindings, b.2.isFunction)
    (hlength : initials.length = bindings.length)
    (hvar : ∀ (j : Nat) b, bindings[j]? = some b → env.variable b.1 = .cell (σ.next + j)) (conv : Convention) :
    Eval.bindings (Expr.eval conv (fuel + 1) env) env bindings (σ.cells initials) =
      .ok () (σ.cells (bindings.map fun b _ => .function (literal env b.2))) := by
  induction bindings generalizing σ initials with
  | nil =>
    obtain rfl := List.length_eq_zero_iff.1 hlength
    rfl
  | cons binding rest ih =>
    obtain ⟨name, value⟩ := binding
    obtain _ | ⟨initial, initials⟩ := initials
    · cases hlength
    rw [Eval.bindings, eval_literal (hfun _ List.mem_cons_self), pure_bind, bind_apply]
    have hx : env.variable name = .cell σ.next := by simpa using hvar 0 (name, value) rfl
    simp only [Eval.write, hx, Store.write_cells_first]
    exact ih (σ := σ.cell (.function (literal env value))) (fun b hb => hfun b (List.mem_cons_of_mem _ hb))
      (by simpa using hlength) fun j b hj => by
        rw [Store.cell_next, Nat.add_assoc, Nat.add_comm 1]
        exact hvar (j + 1) b (by simpa using hj)

/-- the places of a block of functions, with none of the pairs filled -/
theorem exists_tying (names captured : List String) (fs : List FunctionValue)
    (ha : w.AgreesBut image globals false (fun _ => False) σ) (hlength : fs.length = names.length) :
    ∃ w', Tying image globals w w' names captured (σ.cells (fs.map fun f _ => .function f)) fs 0 ∧
      w'.mem = (w.mem.onHeap (w.heap.append (List.replicate (2 * names.length) 0))).pushes
        (pairs w.heap.words.size names.length) := by
  -- the pairs are made, taken for the functions, and then their addresses are pushed
  have hwords : w.allocated [] (List.replicate (2 * names.length) 0) 0 =
      { w with heap := w.heap.append (List.replicate (2 * names.length) 0) } := by simp [World.allocated]
  have ha₁ := ha.allocated [] (List.replicate (2 * names.length) 0) [] (by simp)
  have hg₁ := w.grows_allocated [] (List.replicate (2 * names.length) 0) 0
  simp only [List.length_nil, hwords, Store.cells] at ha₁ hg₁
  let pair (p : Nat) : Option FunctionValue :=
    if w.heap.words.size ≤ p ∧ (p - w.heap.words.size) % 2 = 0 then fs[(p - w.heap.words.size) / 2]? else none
  have hpair : ∀ j, pair (w.heap.words.size + 2 * j) = fs[j]? := by
    intro j
    simp only [pair]
    rw [if_pos (by omega), Nat.add_sub_cancel_left, Nat.mul_div_cancel_left _ Nat.two_pos]
  have hof : ∀ p f, pair p = some f → ∃ j, 0 ≤ j ∧ j < names.length ∧ p = w.heap.words.size + 2 * j := by
    intro p f hp
    simp only [pair, Option.ite_none_right_eq_some] at hp
    obtain ⟨⟨hle, hmod⟩, hj⟩ := hp
    have := (List.getElem?_eq_some_iff.1 hj).1
    exact ⟨(p - w.heap.words.size) / 2, Nat.zero_le _, by omega, by omega⟩
  have hnew : ∀ p, w.function p ≠ none → pair p = none := by
    intro p hp
    refine if_neg fun hle => hp ?_
    exact ha.function_new hle.1
  have ha₂ := ha₁.named (f := pair) (Q := fun p => ∃ j, 0 ≤ j ∧ j < names.length ∧ p = w.heap.words.size + 2 * j) hnew (by simp)
    (by rintro _ ⟨j, -, hj, rfl⟩; simp; omega) fun p g hg hno => absurd (hof p g hg) hno
  have hg₂ := hg₁.named (f := pair) hnew fun p hp => if_neg (by omega)
  have hlength' : (fs.map Value.function).length = (pairs w.heap.words.size names.length).length := by simp [hlength]
  have ha₃ := ha₂.entered _ [] _ names captured hlength' (by simp)
    fun j v hv => by
      obtain ⟨f, hf, rfl⟩ := Option.map_eq_some_iff.1 ((List.getElem?_map ..).symm.trans hv)
      have hj : j < names.length := hlength ▸ (List.getElem?_eq_some_iff.1 hf).1
      exact ⟨_, getElem?_pairs _ hj, _, rfl, by simp [World.named, hpair, hf]⟩
  have hf₃ := Filling.of_opened ha₂ (pairs w.heap.words.size names.length) [] names captured
    (fs.map Value.function) (length_pairs ..) (.inr (by simp [hlength]))
  rw [List.map_map] at ha₃
  refine ⟨_, ⟨⟨hg₂.trans hf₃.grows, hf₃.size, hf₃.next, hf₃.slot, hf₃.loose, hf₃.firm⟩, rfl, ha₃, fun j _ hj => ?_,
    fun j f hj => ?_⟩, ?_⟩
  · refine ⟨?_, ?_, ha.fixed_new (by omega), ha.fixed_new (by omega)⟩
    · simp only [World.opened, World.allocated, World.named]
      rw [Array.getElem?_append_right (Nat.le_add_right _ _), Nat.add_sub_cancel_left, List.getElem?_toArray,
        getElem?_pairs _ hj]
    · simp [World.opened, World.allocated, World.named]
      omega
  · simp [World.opened, World.allocated, World.named, hpair, hj]
  · rw [Memory.pushes_eq]
    simp [World.opened, World.allocated, World.named, World.mem, Memory.onHeap]

/-! ## Blocks -/

/-- where functions copy what they capture, or where there are none, no variable is both captured and assigned -/
theorem Tame.copyable {e : Expr} (ht : Tame junk e) : e.copyable := by
  cases junk with
  | true => exact Expr.copyable_of_functionFree ht
  | false => exact (Bool.and_eq_true_iff.1 (Expr.everywhere_self ht)).1

/-- **Values.** After the places have been made, the values are stored or tied. -/
theorem follows_places {values : Code Op} {captured : List String} {pc : Nat}
    (hc : Correct image globals junk fuel k) (he : EmitsInitial image ρ depth bindings values)
    (hb : ∀ b ∈ bindings, b.2.Budget fuel k) (ht : ∀ b ∈ bindings, Tame junk b.2)
    (horder : junk = true ∨ Expr.inOrder (.block bindings body)) (hcaptured : junk = true → captured = [])
    (hvar : ∀ (j : Nat) x, (bindings.map Prod.fst)[j]? = some x → env.variable x = .cell (w.next + j))
    (hs : ∀ b ∈ bindings, ∀ (ready : Nat → Prop) w', Filling ready w w' (bindings.map Prod.fst) captured →
      w'.regs = w.regs → (∀ (j : Nat) x, (bindings.map Prod.fst)[j]? = some x → x ∈ b.2.uses → ready j) →
      Scoped globals junk w' depth env ρ b.2)
    (hp : Placed image pc (.own (.alloc bindings.length) :: values))
    (ha : w.AgreesBut image globals junk (fun _ => False) σ) :
    Follows image k ⟨pc, w.mem⟩
      (Filled image globals junk w (bindings.map Prod.fst) captured (pc + 1 + values.length))
      (Eval.bindings (Expr.eval (convention globals.length junk) fuel env) env bindings
        (σ.cells (bindings.map fun _ i => .int ((convention globals.length junk).fresh i)))) := by
  have hmoves := moves_alloc (m := w.mem) hp.1
  have hlow : ∀ i, i < globals.length → 2 * i < w.heap.words.size := fun i hi => ha.global_lt hi
  by_cases hordered : junk = true ∨ Expr.ordered bindings
  · obtain ⟨w₁, h₁, hmem, ha₁⟩ := exists_progress ha hcaptured
    rw [List.length_map] at hmem
    rw [List.map_map] at ha₁
    refine Follows.of_reaches hmoves.reaches ?_
    rw [show w.mem.heap = w.heap from rfl, ← hmem]
    exact follows_values hc he hb ht rfl hordered hvar hlow
      (fun b hm w' done h' hready => hs b hm _ w' h'.filling h'.regs hready) h₁ hp.2 ha₁
  · obtain rfl : junk = false := by simpa using fun h => hordered (.inl h)
    have hfun : ∀ b ∈ bindings, b.2.isFunction := by
      have hin := horder.resolve_left nofun
      rw [Expr.inOrder, Bool.or_eq_true] at hin
      exact List.all_eq_true.1 (hin.resolve_right fun ho => hordered (.inr ho))
    cases fuel with
    | zero =>
      obtain _ | ⟨binding, rest⟩ := bindings
      · exact absurd (.inr rfl) hordered
      · rw [(hb _ List.mem_cons_self).eq_zero]
        exact Image.RunsOn.zero _
    | succ fuel =>
      rw [bindings_functions hfun (by simp) (fun j b hj => by rw [← ha.next]; exact hvar j b.1 (by simp [hj]))]
      obtain ⟨w₁, h₁, hmem⟩ := exists_tying (bindings.map Prod.fst) _ (bindings.map fun b => literal env b.2) ha (by simp)
      rw [List.length_map] at hmem
      rw [List.map_map] at h₁
      obtain ⟨w₂, h₂, hreach⟩ := h₁.reaches he hfun ht rfl (by simp) hlow
        (fun b hm w' hf hregs => hs b hm _ w' hf hregs fun _ _ _ _ => trivial) hp.2
      rw [hmem] at hreach
      refine ⟨_, hmoves.reaches.trans hreach, w₂, h₂.filling, h₂.regs, ?_, rfl⟩
      have hnone : (fun p => ∃ j, (bindings.map Prod.fst).length ≤ j ∧ j < (bindings.map Prod.fst).length ∧
          p = w.heap.words.size + 2 * j) = fun _ => False := by
        funext p
        simp only [eq_iff_iff, iff_false, not_exists, not_and]
        omega
      have ha₂ := h₂.agrees
      rwa [hnone] at ha₂

/-- **Blocks.** The places are dropped under the result. -/
theorem computes_local {values result : Code Op} (hc : Correct image globals junk fuel k)
    (hnodup : (bindings.map Prod.fst).Nodup)
    (hvalues : EmitsInitial image (ρ.extend (blockBindings depth (bindings.map Prod.fst))) (depth + bindings.length)
      bindings values)
    (hbody : Emits image (ρ.extend (blockBindings depth (bindings.map Prod.fst))) (depth + bindings.length) body result)
    (hb : ∀ part ∈ (Expr.block bindings body).children, part.Budget fuel k) (ht : Tame junk (.block bindings body))
    (hs : Scoped globals junk w depth env ρ (.block bindings body)) :
    (setting image globals junk).Computes image k w []
      ([.own (.alloc bindings.length)] ++ values ++ result ++ [.own (.slide bindings.length)])
      (Expr.eval (convention globals.length junk) (fuel + 1) env (.block bindings body)) (Result image globals junk) := by
  intro pc σ hp ha
  simp only [placed_append, List.length_append, List.length_singleton, ← Nat.add_assoc, Memory.pushes_nil] at hp ⊢
  obtain ⟨⟨⟨halloc, hplaced⟩, hresult⟩, hslide, -⟩ := hp
  have hchild : ∀ b ∈ bindings, b.2 ∈ (Expr.block bindings body).children :=
    fun b hm => List.mem_cons_of_mem _ (List.mem_map_of_mem hm)
  have hbodychild : body ∈ (Expr.block bindings body).children := List.mem_cons_self
  have horder : junk = true ∨ (Expr.block bindings body).inOrder := by
    cases junk with
    | true => exact .inl rfl
    | false => exact .inr (Bool.and_eq_true_iff.1 (Expr.everywhere_self ht)).2
  have hstored := follows_places
    hc hvalues (fun b hm => hb _ (hchild b hm))
    (fun b hm => ht.child (hchild b hm)) horder
    (fun hj => List.flatMap_eq_nil_iff.2 fun part hp => by subst hj; exact Expr.captured_eq_nil (ht.child hp))
    (fun j x hj => Env.variable_cells_new hnodup hj)
    (fun b hm ready w' hf hregs hready => hf.inside hregs hnodup ht.copyable hs (hchild b hm) hready)
    ⟨halloc.1, hplaced⟩ ha
  have heval : Expr.eval (convention globals.length junk) (fuel + 1) env (.block bindings body) σ =
      (Eval.bindings (Expr.eval (convention globals.length junk) fuel (env.cells w.next (bindings.map Prod.fst)))
        (env.cells w.next (bindings.map Prod.fst)) bindings >>= fun _ =>
        Expr.eval (convention globals.length junk) fuel (env.cells w.next (bindings.map Prod.fst)) body)
        (σ.cells (bindings.map fun _ i => .int ((convention globals.length junk).fresh i))) := by
    rw [Expr.eval, bind_apply, Eval.extend_eq, List.map_map, List.map_map, ha.next]
    rfl
  rw [heval]
  refine hstored.bind fun _ σ₁ b hq => ?_
  obtain ⟨w₁, hf₁, hregs₁, ha₁, rfl⟩ := hq
  have hs₁ := hf₁.inside hregs₁ hnodup ht.copyable hs hbodychild fun _ _ _ _ => trivial
  refine (hc hbody (hb _ hbodychild) (ht.child hbodychild) hs₁ _ σ₁ hresult ha₁).onward fun v σ₂ b hq => ?_
  obtain ⟨w₂, bs, hl₂, ha₂, ⟨a, rfl, hv⟩, rfl⟩ := hq
  have hf₂ := hf₁.leads hl₂
  exact reaches_slide ha hf₂.grows (hl₂.regs.trans hregs₁) (by rw [hf₂.size, List.length_map]) ha₂ hv hslide

end ThreeMachines.Closure
