/-
Calls on the closure machine.

`mark` saves what the caller needs under the arguments, which become the parameters of the function, and `popenv` finds it
again under all that the function has left. The function's other names are elements of the vector in GP.
-/
import ThreeMachines.Proofs.Closure.Blocks

namespace ThreeMachines.Closure

open Heap (address)

variable {image : Image Op} {globals : List String} {junk : Bool} {k fuel : Nat} {w w' : World} {σ : Store} {depth : Int}
  {env : Env} {ρ : Scope}

/-! ## Arguments -/

/-- every argument leaves a word that shows its value -/
theorem computes_arguments {args : List Expr} {c : Code Op} (hc : Correct image globals junk fuel k)
    (he : EmitsArguments image ρ depth args c) (hb : ∀ e ∈ args, e.Budget fuel k) (ht : ∀ e ∈ args, Tame junk e)
    (hs : ∀ e ∈ args, Scoped globals junk w depth env ρ e) :
    (setting image globals junk).Computes image k w [] c
      (Eval.forward (Expr.eval (convention globals.length junk) fuel env) args)
      fun w' vs as => vs.length = args.length ∧ List.Forall₂ (w'.Shown junk) vs as := by
  induction args generalizing w c depth with
  | nil =>
    cases he
    exact Setting.computes_nil ⟨rfl, .nil⟩
  | cons arg args ih =>
    cases he with
    | cons he hrest =>
      refine Setting.computes_bind
        (hc he (hb arg List.mem_cons_self) (ht arg List.mem_cons_self) (hs arg List.mem_cons_self)) fun w₁ v bs hl₁ hr => ?_
      obtain ⟨a, rfl, hv⟩ := hr
      intro pc σ hp ha
      refine (ih hrest (fun e hm => hb e (List.mem_cons_of_mem _ hm)) (fun e hm => ht e (List.mem_cons_of_mem _ hm))
        (fun e hm => ((hs e (List.mem_cons_of_mem _ hm)).leads hl₁).push a) pc σ hp (ha.push a)).bind fun vs σ' b hq => ?_
      obtain ⟨w', as, hl, ha', ⟨hlength, has⟩, rfl⟩ := hq
      obtain ⟨w₂, rfl, hl₂, ha₂⟩ := hl.of_push ha ha'
      have hk : World.Knows (w₂.push a) w₂ := ⟨fun _ _ => id, fun _ _ => id, fun _ _ => id⟩
      exact ⟨_, .refl _, w₂, a :: as, hl₂, ha₂,
        ⟨congrArg (· + 1) hlength, .cons (hv.knows hl₂.grows.knows) (has.imp fun _ _ hv => hv.knows hk)⟩, rfl⟩

/-! ## The names of a function -/

theorem getElem?_captureBindings {place : Int} {shared : List (String × Bool)} {i : Nat} {b : Binding}
    (h : (captureBindings place shared)[i]? = some b) :
    ∃ flag, shared[i]? = some (b.name, flag) ∧ b.storage = (if flag then .global else .captured) ∧
      b.address = place + i := by
  induction shared generalizing place i with
  | nil => simp [captureBindings] at h
  | cons entry rest ih =>
    obtain ⟨name, flag⟩ := entry
    cases i with
    | zero =>
      obtain rfl : ⟨name, if flag then .global else .captured, place⟩ = b := by simpa [captureBindings] using h
      exact ⟨flag, rfl, rfl, (Int.add_zero _).symm⟩
    | succ i =>
      obtain ⟨other, hi, hs, ha⟩ := ih (by simpa [captureBindings] using h)
      refine ⟨other, hi, hs, ?_⟩
      rw [ha]
      push_cast
      ring

theorem getElem?_formalBindings {first : Int} {names : List String} {i : Nat} {b : Binding}
    (h : (formalBindings first names)[i]? = some b) :
    names[i]? = some b.name ∧ b.storage = .formal ∧ b.address = first + i := by
  induction names generalizing first i with
  | nil => simp [formalBindings] at h
  | cons name names ih =>
    cases i with
    | zero =>
      obtain rfl : ⟨name, .formal, first⟩ = b := by simpa [formalBindings] using h
      exact ⟨rfl, rfl, (Int.add_zero _).symm⟩
    | succ i =>
      obtain ⟨hi, hs, ha⟩ := ih (by simpa [formalBindings] using h)
      refine ⟨hi, hs, ?_⟩
      rw [ha]
      push_cast
      ring

/-- bindings of different names may be made in any order -/
theorem functionScope_eq {params : List String} {shared : List (String × Bool)}
    (h : (shared.map Prod.fst ++ params).Nodup) :
    functionScope params shared =
      (Scope.empty.extend (captureBindings 0 shared)).extend (formalBindings (1 - params.length) params) := by
  obtain ⟨hshared, hparams, hdisjoint⟩ := List.nodup_append.1 h
  funext x
  rw [functionScope, Scope.extend_append]
  by_cases hx : x ∈ params
  · have hno : x ∉ (captureBindings 0 shared).map Binding.name := by
      rw [map_name_captureBindings]
      exact fun hin => hdisjoint _ hin _ hx rfl
    rw [← map_name_formalBindings (1 - params.length) params] at hx
    obtain ⟨b, hb, rfl⟩ := List.mem_map.1 hx
    rw [Scope.extend_of_not_mem hno, Scope.extend_of_mem _ (by rwa [map_name_formalBindings]) hb,
      Scope.extend_of_mem _ (by rwa [map_name_formalBindings]) hb]
  · have hno : x ∉ (formalBindings (1 - params.length) params).map Binding.name := by rwa [map_name_formalBindings]
    rw [Scope.extend_of_not_mem hno]
    by_cases hin : x ∈ (captureBindings 0 shared).map Binding.name
    · obtain ⟨b, hb, rfl⟩ := List.mem_map.1 hin
      rw [Scope.extend_of_mem _ (by rwa [map_name_captureBindings]) hb,
        Scope.extend_of_mem _ (by rwa [map_name_captureBindings]) hb]
    · rw [Scope.extend_of_not_mem hin, Scope.extend_of_not_mem hin, Scope.extend_of_not_mem hno]

/-- the captured names of a function are elements of the vector in GP -/
theorem scoped_captures {f : FunctionValue} {g : Nat} {shared : List (String × Bool)} (hgp : w.regs.gp = address g)
    (hcovers : ∀ x ∈ f.body.captures (f.params ++ f.locals), x ∈ shared.map Prod.fst)
    (helement : ∀ j x flag, shared[j]? = some (x, flag) → w.Element globals junk g j flag (f.env.variable x)) :
    ScopedBut globals junk w depth (f.params ++ f.locals) f.env (Scope.empty.extend (captureBindings 0 shared)) f.body := by
  have hfinds : ∀ x b, Scope.empty.extend (captureBindings 0 shared) x = some b → ∃ j flag,
      b.storage = (if flag then .global else .captured) ∧ b.address = (j : Nat) ∧
      w.Element globals junk g j flag (f.env.variable x) := by
    intro x b hb
    obtain ⟨hmem, rfl⟩ := Scope.mem_of_extend_empty hb
    obtain ⟨j, hj⟩ := List.mem_iff_getElem?.1 hmem
    obtain ⟨flag, hj, hs, had⟩ := getElem?_captureBindings hj
    exact ⟨j, flag, hs, by rw [had, Int.zero_add], helement j _ flag hj⟩
  refine ⟨fun x _ _ b hb => ?_, fun x _ _ b k hb hs hk => ?_, fun x hx hno k hk => ?_⟩
  · obtain ⟨j, flag, hs, had, he⟩ := hfinds x b hb
    exact .vector hs hgp had he
  · obtain ⟨j, flag, hst, -, a, -, he⟩ := hfinds x b hb
    rw [hk] at he
    cases he
    exact absurd hst hs
  · obtain ⟨⟨_, flag⟩, hmem, rfl⟩ := List.mem_map.1
      (hcovers x (Expr.mem_captures.2 ⟨hno, Expr.uses_of_captured hx⟩))
    obtain ⟨j, hj⟩ := List.mem_iff_getElem?.1 hmem
    obtain ⟨a, -, he⟩ := helement j _ flag hj
    rw [hk] at he
    cases he with
    | copied hc _ => exact ⟨_, hc⟩

/-! ## Bodies -/

/-- the names of a function, and its place in the image -/
theorem names_of_emitsBody {params locals : List String} {shared : List (String × Bool)} {body : Expr} {entry : Nat}
    (h : EmitsBody image params locals shared body entry) :
    (shared.map Prod.fst ++ params).Nodup ∧ (∀ x ∈ body.captures (params ++ locals), x ∈ shared.map Prod.fst) ∧
      entry < image.instrs.size := by
  cases h with
  | plain hnodup hcovers _ hp => exact ⟨hnodup, by rwa [List.append_nil], lt_size_of_placed hp⟩
  | withLocals hnodup _ hcovers _ hp => exact ⟨hnodup, hcovers, lt_size_of_placed hp⟩

/-- the places of locals are made 0 -/
theorem reaches_zeros {pc : Nat} (m : Memory Registers) (as : List Int)
    (hp : Placed image pc (zeroedBlock.zeros as.length)) :
    image.Reaches ⟨pc, m.pushes as⟩
      ⟨pc + (zeroedBlock.zeros as.length).length, m.pushes (List.replicate as.length 0)⟩ := by
  induction as generalizing m pc with
  | nil => exact .refl _
  | cons a as ih =>
    obtain ⟨hload, hstore, hpop, hrest⟩ := hp
    have hsize : (m.pushes (a :: as)).words.size = m.words.size + (as.length + 1) := by
      rw [Memory.pushes_words]
      simp
    have h₁ := Image.moves_loadc (m := m.pushes (a :: as)) hload
    have h₂ := moves_storeloc (m := m.pushes (a :: as)) (a := 0) (i := m.words.size) hstore (by rw [hsize]; push_cast; ring)
      (by omega)
    have hwrite : (m.pushes (a :: as)).write m.words.size 0 = (m.push 0).pushes as := m.write_pushes (a :: as) 0 0
    rw [hwrite] at h₂
    have h₃ := ih (m.push 0) hrest
    rw [List.length_cons, zeroedBlock.zeros, List.length_append, ← Nat.add_assoc]
    exact ((h₁.reaches.trans h₂.reaches).trans (Image.moves_pop hpop).reaches).trans h₃

/-- the run has come to the end of a function with the result on top -/
def Returns (image : Image Op) (globals : List String) (w : World) (v : Value) (σ : Store) (b : Point Registers) : Prop :=
  ∃ pc w' a, World.Leads w w' ∧ w'.AgreesBut image globals false (fun _ => False) σ ∧ w'.Shown false v a ∧
    image.instrs[pc]? = some (.own .popenv) ∧ b = ⟨pc, w'.mem.push a⟩

/-- the body of a function, with its locals made first -/
theorem follows_body {params locals : List String} {shared : List (String × Bool)} {body : Expr} {entry : Nat}
    (hc : Correct image globals false fuel 0) (hem : EmitsBody image params locals shared body entry)
    (hbody : body.capturesByValue) (hnames : ∀ x ∈ locals, x ∈ body.assigns → x ∉ body.captured)
    (hs : ScopedBut globals false w 0 locals env (functionScope params shared) body)
    (ha : w.AgreesBut image globals false (fun _ => False) σ) :
    Follows image 0 ⟨entry, w.mem⟩ (Returns image globals w)
      ((Eval.extend env (locals.map fun name => (name, fun _ => .int 0)) >>= fun inner =>
        Expr.eval (convention globals.length false) fuel inner body) σ) := by
  cases hem with
  | @plain _ _ _ c _ _ _ he hp =>
    rw [placed_append] at hp
    refine (hc he (.none _ _) hbody hs entry σ hp.1 ha).imp fun v σ' b hq => ?_
    obtain ⟨w', bs, hl, ha', ⟨a, rfl, hv⟩, rfl⟩ := hq
    exact ⟨_, w', a, hl, ha', hv, hp.2.1, rfl⟩
  | @withLocals _ _ _ _ c _ _ hlocals _ he hp =>
    simp only [placed_append, List.length_append, List.length_singleton, ← Nat.add_assoc] at hp
    obtain ⟨⟨⟨⟨halloc, hzeros⟩, hresult⟩, hslide, -⟩, hpopenv, -⟩ := hp
    rw [Eval.extend_zeros, ← ha.next]
    -- the places are made and filled with 0
    have hlength : (List.replicate locals.length (0 : Int)).length = locals.length := List.length_replicate
    have ha₁ := ha.entered (List.replicate locals.length 0) (List.replicate (2 * locals.length) 0)
      (List.replicate locals.length (.int 0)) locals body.captured (by simp) (by simp) fun j v hv => by
        obtain ⟨hj, rfl⟩ : j < locals.length ∧ Value.int 0 = v := by simpa [List.getElem?_replicate] using hv
        exact ⟨0, by simp [hj], rfl, .inr rfl⟩
    have hf := Filling.of_opened ha _ (List.replicate (2 * locals.length) 0) locals body.captured
      (List.replicate locals.length (.int 0)) hlength (.inr (by simp))
    have hs₁ := hf.enter _ (map_name_blockBindings ..) hlocals
      (by rwa [List.append_nil]) rfl (fun j b hb => by
        obtain ⟨-, hst, had⟩ := getElem?_blockBindings hb
        exact ⟨.inl hst, had⟩) (fun _ _ _ _ => trivial) (fun _ _ => id) hnames
    rw [Int.zero_add] at hs₁
    have hreach := (moves_alloc (m := w.mem) halloc.1).reaches.trans
      (reaches_zeros _ (pairs w.mem.heap.words.size locals.length) (by rwa [length_pairs]))
    rw [length_pairs, Memory.pushes_eq] at hreach
    refine Follows.of_reaches hreach ?_
    refine (hc he (.none _ _) hbody hs₁ _ _ hresult ha₁).onward fun v σ' b hq => ?_
    obtain ⟨w₂, bs, hl₂, ha₂, ⟨a, rfl, hv⟩, rfl⟩ := hq
    have hf₂ := hf.leads hl₂
    obtain ⟨b, hreach', w₃, bs, hl₃, ha₃, ⟨a, rfl, hv⟩, rfl⟩ :=
      reaches_slide ha hf₂.grows hl₂.regs hf₂.size ha₂ hv hslide
    exact ⟨_, hreach', _, w₃, a, hl₃, ha₃, hv, hpopenv, rfl⟩

/-! ## Calls -/

namespace World

/-- the same memory with other registers -/
def withRegs (w : World) (regs : Registers) : World := { w with regs }

theorem grows_withRegs (w : World) (regs : Registers) : Grows w (w.withRegs regs) :=
  ⟨⟨fun _ _ => id, fun _ _ => id, fun _ _ => id⟩, fun _ _ => id, fun _ _ => .inl, fun _ _ _ => rfl, le_rfl, le_rfl,
    fun _ _ => rfl, fun _ _ => rfl, fun _ _ => rfl, le_rfl⟩

theorem AgreesBut.withRegs {pending : Nat → Prop} (h : w.AgreesBut image globals junk pending σ) (regs : Registers) :
    (w.withRegs regs).AgreesBut image globals junk pending σ :=
  ⟨h.next, h.apart, h.known, h.holds, h.constant, h.shared, h.fixed, h.loose,
    fun p f hp hno => (h.made p f hp hno).knows (w.grows_withRegs regs).knows, h.pending_lt, h.size⟩

/-- the world after a mark with this return address -/
def marked (w : World) (back : Nat) : World :=
  (w.withRegs ⟨w.regs.gp, framePointer w.mem⟩).pushes [w.regs.gp, w.regs.fp, Image.base + back]

theorem mem_pushes (w : World) (as : List Int) : (w.pushes as).mem = w.mem.pushes as := by
  rw [Memory.pushes_eq]
  rfl

theorem setting_pushes (w : World) (as : List Int) : (setting image globals junk).pushes w as = w.pushes as := by
  induction as generalizing w with
  | nil => simp [Setting.pushes, World.pushes]
  | cons a as ih =>
    refine (ih (w.push a)).trans ?_
    simp [World.pushes, World.push]

theorem grows_marked (w : World) (back : Nat) : Grows w (w.marked back) :=
  (w.grows_withRegs _).trans (grows_pushes _ _)

/-- what was pushed over all variables stays there -/
theorem Grows.drop_pushes {pending : Nat → Prop} {as : List Int} (h : w.AgreesBut image globals junk pending σ)
    (hg : Grows (w.pushes as) w') :
    ∃ bs, w'.words.toList.drop w.words.size = as ++ bs := by
  refine ⟨w'.words.toList.drop (w.words.size + as.length), List.ext_getElem? fun i => ?_⟩
  have hsize := hg.size
  simp only [World.pushes, Array.size_append, List.size_toArray] at hsize
  rw [List.getElem?_drop]
  by_cases hi : i < as.length
  · have hkept := hg.kept (w.words.size + i) (by simp [World.pushes, hi]) fun k hk => by
      have := h.lt_size hk
      omega
    rw [List.getElem?_append_left hi, Array.getElem?_toList, hkept, World.pushes,
      Array.getElem?_append_right (Nat.le_add_right _ _), Nat.add_sub_cancel_left, List.getElem?_toArray]
  · rw [List.getElem?_append_right (by omega), List.getElem?_drop]
    congr 1
    omega

end World

/-- the memory in a function, over the frame -/
theorem mem_in_frame {w₀ : World} {back : Nat} (ha : w.AgreesBut image globals junk (fun _ => False) σ)
    (hg : World.Grows (w.marked back) w₀) : ∃ bs, w₀.mem =
      ((withRegs (World.closed w w₀).mem w₀.regs).pushes [w.regs.gp, w.regs.fp, Image.base + back]).pushes bs := by
  obtain ⟨bs, hbs⟩ := World.Grows.drop_pushes (ha.withRegs _) hg
  refine ⟨bs, ?_⟩
  have hmem := World.mem_closed w w₀
  have hdrop : w₀.words.toList.drop w.words.size = [w.regs.gp, w.regs.fp, Image.base + (back : Int)] ++ bs := hbs
  rw [hdrop, Memory.pushes_append] at hmem
  rw [← withRegs_pushes, ← withRegs_pushes, ← hmem]
  rfl

/-- at the end of a body the frame is dropped under the value, and the caller goes on in its own world -/
theorem reaches_back {pc pc' : Nat} {a : Int} {v : Value} {back : Label} {σ₀ σ' : Store} {w₃ : World}
    (ha : w.AgreesBut image globals false (fun _ => False) σ₀) (hg : World.Grows (w.marked (pc + 1)) w₃)
    (hfp : w₃.regs.fp = framePointer w.mem) (ha₃ : w₃.AgreesBut image globals false (fun _ => False) σ')
    (hv : w₃.Shown false v a) (hpopenv : image.instrs[pc']? = some (.own .popenv))
    (hback : image.instrs[pc + 1]? = some (.label back)) :
    ∃ b, image.Reaches ⟨pc', w₃.mem.push a⟩ b ∧
      (setting image globals false).Post w (pc + 2) (Result image globals false) v σ' b := by
  obtain ⟨hl, hagrees⟩ := ((w.grows_marked (pc + 1)).trans hg).close ha ha₃
  obtain ⟨bs, hmem⟩ := mem_in_frame ha hg
  have hpop := moves_popenv (m := withRegs (World.closed w w₃).mem w₃.regs) (a := a) w.regs.gp w.regs.fp bs
    hpopenv (Array.getElem?_eq_some_iff.1 hback).1 (by
      rw [withRegs_regs, hfp, framePointer, framePointer, withRegs_words]
      exact congrArg (fun n : Nat => ((n + 2 : Nat) : Int)) hl.size.symm)
  rw [← hmem] at hpop
  exact ⟨_, hpop.reaches.trans (Image.moves_label hback).reaches, World.closed w w₃, [a], hl, hagrees, ⟨a, rfl, hv⟩, rfl⟩

/-- **Calls.** From the arguments and the function on top, the call leaves what the function gives. -/
theorem follows_apply {f : FunctionValue} {vs : List Value} {as : List Int} {p pc : Nat} {n : Int} {back : Label}
    {σ₀ : Store} (hc : Correct image globals false fuel 0) (harity : f.params.length = vs.length)
    (happly : image.instrs[pc]? = some (.own (.apply n))) (hback : image.instrs[pc + 1]? = some (.label back))
    (ha₀ : w.AgreesBut image globals false (fun _ => False) σ₀) (hl : World.Leads (w.marked (pc + 1)) w')
    (ha : w'.AgreesBut image globals false (fun _ => False) σ) (hvs : List.Forall₂ (w'.Shown false) vs as)
    (hf : w'.function p = some f) :
    Follows image 0 ⟨pc, w'.mem.pushes (as ++ [address p])⟩
      ((setting image globals false).Post w (pc + 2) (Result image globals false))
      (Eval.apply (Expr.eval (convention globals.length false) fuel) f vs σ) := by
  obtain ⟨entry, g, shared, hcode, hvector, hem, hcopy, helement⟩ := ha.made p f hf id
  have hlength : as.length = f.params.length := hvs.length_eq.symm.trans harity.symm
  obtain ⟨hnodup, hcovers, hentry⟩ := names_of_emitsBody hem
  -- the arguments become the parameters
  have hb := ha.withRegs ⟨address g, w'.regs.fp⟩
  have ha₂ := hb.entered _ [] _ f.params f.body.captured hvs.length_eq nofun fun j v hv => by
    have hlt := (List.getElem?_eq_some_iff.1 hv).1
    have hlt' : j < as.length := hvs.length_eq ▸ hlt
    refine ⟨as[j], by simp [hlt'], ?_⟩
    have := hvs.get hlt hlt'
    rw [List.getElem?_eq_getElem hlt, Option.some.injEq] at hv
    rw [← hv]
    exact this
  have hf₂ := Filling.of_opened hb _ [] _ f.body.captured _ hlength
    (.inr harity.symm)
  have hs : ScopedBut globals false _ (-(f.params.length : Int) + f.params.length) f.locals _ _ f.body :=
    hf₂.enter (formalBindings (1 - f.params.length) f.params) (map_name_formalBindings ..)
      (List.nodup_append.1 hnodup).2.1 (scoped_captures rfl hcovers fun j x flag hj =>
        (helement j x flag hj).knows (w'.grows_withRegs ⟨address g, w'.regs.fp⟩).knows)
      rfl (fun j b hb => by
        obtain ⟨-, hst, had⟩ := getElem?_formalBindings hb
        exact ⟨.inr hst, by rw [had]; ring⟩) (fun _ _ _ _ => trivial) (fun _ _ => id)
      fun x hx => hcopy.names x (List.mem_append_left _ hx)
  rw [← functionScope_eq hnodup, Int.add_left_neg] at hs
  have hmoves := moves_apply (m := w'.mem.pushes as) (a := address g) happly hentry
    (by rw [Memory.pushes_heap]; exact ha.fixed _ _ hcode) (by rw [Memory.pushes_heap]; exact ha.fixed _ _ hvector)
  have hmem : withRegs (w'.mem.pushes as) ⟨address g, (w'.mem.pushes as).regs.fp⟩ =
      ((w'.withRegs ⟨address g, w'.regs.fp⟩).opened as [] (constants f.params f.body.captured vs)).mem := by
    simp [Memory.pushes_eq, withRegs, World.mem, World.opened, World.allocated, World.withRegs]
  rw [hmem] at hmoves
  rw [Memory.pushes_append]
  refine Follows.of_reaches hmoves.reaches ?_
  rw [Eval.apply_eq _ harity, ← ha.next]
  refine (follows_body hc hem hcopy.body (fun x hx => hcopy.names x (List.mem_append_right _ hx)) hs ha₂).onward
    fun v σ' b hq => ?_
  obtain ⟨pc', w₃, a, hl₃, ha₃, hv, hpopenv, rfl⟩ := hq
  have hgrows : World.Grows (w.marked (pc + 1)) w₃ :=
    ((hl.grows.trans (World.grows_withRegs _ _)).trans hf₂.grows).trans hl₃.grows
  have hfp : w₃.regs.fp = framePointer w.mem := by
    rw [hl₃.regs]
    show w'.regs.fp = _
    rw [hl.regs]
    rfl
  exact reaches_back ha₀ hgrows hfp ha₃ hv hpopenv hback

theorem computes_call {callee : Expr} {args : List Expr} {target pushed : Code Op} {back : Label}
    (hl : image.WellLabelled) (hc : Correct image globals false fuel 0)
    (hargs : EmitsArguments image ρ (depth + frameWords) args pushed)
    (hcallee : Emits image ρ (depth + frameWords + args.length) callee target)
    (ht : (Expr.call callee args).capturesByValue) (hs : Scoped globals false w depth env ρ (.call callee args)) :
    (setting image globals false).Computes image 0 w []
      ([.own (.mark back)] ++ pushed ++ target ++ [.own (.apply args.length), .label back])
      (Expr.eval (convention globals.length false) (fuel + 1) env (.call callee args)) (Result image globals false) := by
  intro pc σ hp ha
  have ht' : Tame false (.call callee args) := ht
  simp only [placed_append, List.length_append, List.length_singleton, ← Nat.add_assoc, Memory.pushes_nil] at hp ⊢
  obtain ⟨⟨⟨hmark, hpushed⟩, htarget⟩, happly, hback, -⟩ := hp
  have hpart : ∀ part ∈ (Expr.call callee args).children, Scoped globals false
      (w.marked (pc + 1 + pushed.length + target.length + 1)) (depth + frameWords) env ρ part :=
    fun part hm => (hs.child hm rfl).grows (w.grows_marked _) rfl (by
      simp [World.marked, World.pushes, World.withRegs, frameWords])
  -- the frame, the arguments and the function
  have hreach := (moves_mark (m := w.mem) hmark.1 (hl _ _ hback)).reaches
  refine Follows.of_reaches hreach ?_
  have hmem : ((w.marked (pc + 1 + pushed.length + target.length + 1)).mem) =
      (withRegs w.mem ⟨w.mem.regs.gp, framePointer w.mem⟩).pushes
        [w.mem.regs.gp, w.mem.regs.fp, Image.base + (pc + 1 + pushed.length + target.length + 1 : Nat)] :=
    World.mem_pushes (w.withRegs ⟨w.regs.gp, framePointer w.mem⟩) _
  rw [← hmem]
  have hmarked : (w.marked (pc + 1 + pushed.length + target.length + 1)).AgreesBut image globals false (fun _ => False) σ :=
    (ha.withRegs _).pushes _
  refine (computes_arguments hc hargs (fun e _ => .none _ _) (fun e hm => ht'.child (List.mem_cons_of_mem _ hm))
    (fun e hm => hpart e (List.mem_cons_of_mem _ hm)) _ σ hpushed hmarked).bind fun vs σ₁ b hq => ?_
  obtain ⟨w₁, as, hl₁, ha₁, ⟨hlength, hvs⟩, rfl⟩ := hq
  have hlength' : as.length = args.length := hvs.length_eq.symm.trans hlength
  have hs₁ : Scoped globals false (w₁.pushes as) (depth + frameWords + args.length) env ρ callee := by
    rw [← hlength']
    exact ((hpart callee List.mem_cons_self).leads hl₁).pushes as
  have hfun := hc hcallee (.none _ _) (ht'.child List.mem_cons_self) hs₁ _ σ₁ htarget (ha₁.pushes as)
  rw [Memory.pushes_nil, show (setting image globals false).mem (w₁.pushes as) = w₁.mem.pushes as from
    World.mem_pushes w₁ as] at hfun
  refine hfun.bind fun v σ₂ b hq => ?_
  obtain ⟨w₂', bs, hl₂, ha₂, ⟨a, rfl, hv⟩, rfl⟩ := hq
  cases v with
  | int n => exact trivial
  | function f =>
    by_cases harity : f.params.length = args.length
    · obtain ⟨p, rfl, hf⟩ := hv
      rw [← World.setting_pushes] at hl₂
      obtain ⟨w₂, rfl, hl₂, ha₂⟩ := Setting.leads_pushes ha₁ hl₂ ha₂
      rw [World.setting_pushes] at hf ⊢
      have hk : World.Knows w₁ w₂ := hl₂.grows.knows
      have happlied := follows_apply (w := w) hc (harity.trans hlength.symm) happly hback ha (hl₁.trans hl₂) ha₂
        (hvs.imp fun _ _ hv => hv.knows hk) hf
      rw [Memory.pushes_append] at happlied
      rw [show (setting image globals false).mem (w₂.pushes as) = w₂.mem.pushes as from World.mem_pushes w₂ as]
      simp only [Eval.callee, if_pos harity, pure_bind]
      exact happlied
    · simp only [Eval.callee, if_neg harity]
      exact trivial

end ThreeMachines.Closure
