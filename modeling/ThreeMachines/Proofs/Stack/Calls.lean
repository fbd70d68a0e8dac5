/-
Procedures and calls on the stack machine.

A call pushes its arguments and the caller's frame pointer, and the procedure finds them under its return address. The
place of the first argument receives the result, also where there is no argument; the other arguments are dropped by the
caller. What the caller has on the stack lies under all this.
-/
import ThreeMachines.Proofs.Stack.Fragments

namespace ThreeMachines.Stack

variable {image : Image Op} {globals : List String} {k fuel : Nat} {w : World} {env : Env} {ρ : Scope} {depth : Int}

/-! ## Procedures -/

theorem computes_procedure {params locals : List String} {body e : Expr} {entry stop : Label} {c : Code Op}
    (hl : image.WellLabelled) (hem : EmitsProcedure globals ρ params locals body c)
    (hbody : e.children = [body]) (hbinders : e.binders = params ++ locals) (ho : Outer env ρ e) :
    (setting image globals).Computes image k w [] (procedure entry stop locals.length c)
      (pure (.function ⟨params, locals, body, env⟩)) (Result image globals) := by
  obtain ⟨hnodup, hcaptures, hem⟩ := hem
  refine Setting.computes_of_reaches fun pc σ hp ha => ?_
  rw [procedure_eq] at hp ⊢
  obtain ⟨hjump, hp⟩ := hp
  rw [placed_append] at hp
  obtain ⟨hentry, hstop, hload, -⟩ := hp
  have houter : ∀ x ∈ body.captures (params ++ locals), env.variable x = .global x := by
    intro x hx
    obtain ⟨hx', huses⟩ := Expr.mem_captures.1 hx
    exact ho x (Expr.uses_child (by simp [hbody]) huses (by rwa [hbinders])) (hcaptures x hx)
  refine ⟨_, σ, w, [Image.base + (pc + 1 : Nat)], rfl, .refl w, ha,
    ⟨_, rfl, pc + 1, rfl, ⟨entry, c, hentry, hem⟩, hnodup, houter⟩, ?_⟩
  have hreach := ((Image.moves_jump (m := w.mem) hjump (hl _ _ hstop)).reaches.trans
    (Image.moves_label hstop).reaches).trans (Image.moves_loadAddr hload (hl _ _ hentry.1)).reaches
  simp only [List.length_cons, List.length_append, List.length_nil]
  rw [show pc + ((entered entry locals.length c).length + (0 + 1 + 1) + 1) =
    pc + 1 + (entered entry locals.length c).length + 1 + 1 by omega]
  exact hreach

/-! ## Arguments -/

theorem computes_reversed {args : List Expr} {c : Code Op} (hc : Correct image globals fuel k)
    (he : EmitsReversed globals ρ depth args c) (hb : ∀ e ∈ args, e.Budget fuel k) (ho : ∀ e ∈ args, Outer env ρ e)
    (hs : Scoped globals w env ρ depth) :
    (setting image globals).Computes image k w [] c (Eval.backward (Expr.eval convention fuel env) args)
      fun _ vs bs => vs.length = args.length ∧ List.Forall₂ (Shown image globals) vs bs.reverse := by
  induction args generalizing c with
  | nil =>
    cases he
    exact Setting.computes_nil ⟨rfl, .nil⟩
  | cons arg args ih =>
    cases he with
    | @cons _ _ _ _ later first hlater hfirst =>
      refine Setting.computes_bind (ih hlater (fun e hm => hb e (List.mem_cons_of_mem _ hm))
        fun e hm => ho e (List.mem_cons_of_mem _ hm)) fun w₁ vs bs hl₁ hr => ?_
      obtain ⟨hlength, hvs⟩ := hr
      have hdepth : bs.length = args.length := by rw [← hlength, hvs.length_eq, List.length_reverse]
      have hs₁ := (hs.leads hl₁).pushes image bs
      rw [hdepth] at hs₁
      rw [← List.append_nil first]
      refine Setting.computes_bind (hc hfirst (hb arg List.mem_cons_self) (ho arg List.mem_cons_self) hs₁)
        fun w₂ v cs hl₂ hr => ?_
      obtain ⟨a, rfl, hv⟩ := hr
      exact Setting.computes_nil ⟨by simp [hlength], by simpa using ⟨hv, hvs⟩⟩

/-! ## Calls -/

/-- the place of the first argument receives the result -/
theorem set_firstFormal {n : Nat} {rest : List Int} {x y : Int} (a : Int) (hx : rest[n + 1]? = some x)
    (hy : rest[n + 2]? = some y) :
    rest.set n a = rest.take n ++ [a] ++ [x, y] ++ rest.drop (n + 3) := by
  obtain ⟨hlt, rfl⟩ := List.getElem?_eq_some_iff.1 hx
  obtain ⟨hlt', rfl⟩ := List.getElem?_eq_some_iff.1 hy
  rw [List.set_eq_take_append_cons_drop, if_pos (by omega), List.append_assoc, List.append_assoc,
    List.drop_eq_getElem_cons hlt, List.drop_eq_getElem_cons hlt']
  rfl

/-- what a caller does when the procedure has returned -/
def dropping (slots : Int) : Code Op :=
  [.pop] ++ if 1 < slots then [.own (.slide (wordSize * (slots - 1)) wordSize)] else []

/-- from the end of a procedure's body to the end of the call: all but the result is dropped -/
theorem reaches_return {m : Memory Registers} {n pc back : Nat} {a : Int} {rest : List Int}
    (hp : Placed image pc [.own (.loadrc firstFormal), .own .store, .pop, .own .ret])
    (hback : Placed image back (dropping (n + 1 : Nat)))
    (hfp : rest[n + 1]? = some m.regs.fp) (hreturn : rest[n + 2]? = some (Image.base + back)) :
    image.Reaches ⟨pc, ((framed m (wordSize * (m.words.size + n + 2 : Nat))).pushes rest).push a⟩
      ⟨back + (dropping (n + 1 : Nat)).length, m.push a⟩ := by
  obtain ⟨hload, hstore, hpop, hret, -⟩ := hp
  obtain ⟨hpop', hslide⟩ := (placed_append ..).1 hback
  have hlt : n < rest.length := by
    have := (List.getElem?_eq_some_iff.1 hfp).1
    omega
  have hlength : (rest.take n).length = n := by simp; omega
  have haddress : wordSize * ((m.words.size + n + 2 : Nat) : Int) + firstFormal = wordSize * (m.words.size + n : Nat) := by
    simp only [firstFormal, wordSize]
    push_cast
    ring
  have hframe : framePointer (m.pushes (rest.take n ++ [a])) = wordSize * (m.words.size + n + 2 : Nat) := by
    rw [framePointer, Memory.pushes_words]
    congr 2
    simp [hlength]
    omega
  have hwrite : ((framed m (wordSize * (m.words.size + n + 2 : Nat))).pushes rest).write (m.words.size + n) a =
      ((framed (m.pushes (rest.take n ++ [a])) (framePointer (m.pushes (rest.take n ++ [a])))).pushes
        [m.regs.fp, Image.base + back]).pushes (rest.drop (n + 3)) := by
    rw [hframe, framed_pushes, ← Memory.pushes_append, ← Memory.pushes_append, ← List.append_assoc,
      ← set_firstFormal a hfp hreturn]
    exact Memory.write_pushes (framed m _) rest n a
  have h₁ := (moves_loadrc (m := ((framed m (wordSize * (m.words.size + n + 2 : Nat))).pushes rest).push a) hload).reaches
  rw [Memory.push_regs, Memory.pushes_regs, framed_fp, haddress] at h₁
  have h₂ := (moves_store (m := (framed m (wordSize * (m.words.size + n + 2 : Nat))).pushes rest) (a := a)
    (i := m.words.size + n) hstore (by simpa [Memory.pushes_words] using hlt)).reaches
  rw [hwrite] at h₂
  have h₃ := ((h₁.trans h₂).trans (Image.moves_pop hpop).reaches).trans
    (moves_ret (rest.drop (n + 3)) hret (Array.getElem?_eq_some_iff.1 hpop'.1).1).reaches
  rw [← Memory.pushes_regs m (rest.take n ++ [a]), framed_self] at h₃
  have h₄ := h₃.trans (Image.moves_pop hpop'.1).reaches
  rw [Memory.pushes_append] at h₄
  -- the other arguments are dropped
  by_cases hn : 1 < ((n + 1 : Nat) : Int)
  · simp only [dropping, if_pos hn] at hslide ⊢
    have hwords : wordSize * (((n + 1 : Nat) : Int) - 1) = wordSize * (rest.take n).length := by
      rw [hlength]
      push_cast
      ring
    rw [hwords] at hslide
    exact h₄.trans (moves_slide (rest.take n) hslide.1).reaches
  · obtain rfl : n = 0 := by omega
    rwa [dropping, if_neg hn]

theorem getElem?_formalBindings {offset : Int} {names : List String} {i : Nat} {b : Binding}
    (h : (formalBindings offset names)[i]? = some b) :
    names[i]? = some b.name ∧ b.storage = .formal ∧ b.address = offset - wordSize * i := by
  induction names generalizing offset i with
  | nil => simp [formalBindings] at h
  | cons name names ih =>
    cases i with
    | zero =>
      obtain rfl : ⟨name, .formal, offset⟩ = b := by simpa [formalBindings] using h
      simp
    | succ i =>
      obtain ⟨hi, hs, ha⟩ := ih (by simpa [formalBindings] using h)
      refine ⟨hi, hs, ?_⟩
      rw [ha]
      push_cast
      ring

/-- where the variables of a procedure lie that has `params` of them on the `n + 1` words of its caller -/
def framePlace (size n params j : Nat) : Nat := if j < params then size + (n - j) else size + n + 3 + (j - params)

/-- the world in a procedure that has been called: over the words of its caller lie the caller's frame pointer, the
return address and the locals -/
def World.called (w : World) (first n back : Nat) (bs : List Int) (params locals : Nat) : World :=
  ⟨w.words ++ (bs ++ [w.fp, Image.base + back] ++ List.replicate locals 0).toArray,
    wordSize * (w.words.size + n + 2 : Nat), w.placing first (params + locals) (framePlace w.words.size n params)⟩

/-- the parameters on the words of the caller -/
def Passed (image : Image Op) (globals : List String) (n : Nat) (vs : List Value) (bs : List Int) : Prop :=
  bs.length = n + 1 ∧ ∀ i v, vs[i]? = some v → i ≤ n ∧ ∃ a, bs[n - i]? = some a ∧ Shown image globals v a

theorem World.Agrees.called {σ : Store} {n back locals : Nat} {vs : List Value} {bs : List Int}
    (h : w.Agrees image globals σ) (hp : Passed image globals n vs bs) :
    World.Opens w (w.called σ.next n back bs vs.length locals) ∧
      (w.called σ.next n back bs vs.length locals).Agrees image globals
        (σ.cells ((vs ++ List.replicate locals (Value.int 0)).map fun v _ => v)) := by
  obtain ⟨hlength, hpassed⟩ := hp
  refine ⟨h.opens fun j _ => ?_, ?_⟩
  · rw [framePlace]
    split <;> omega
  have henter := h.enter (bs ++ [w.fp, Image.base + back] ++ List.replicate locals 0)
    (wordSize * (w.words.size + n + 2 : Nat)) (vs ++ List.replicate locals (.int 0))
    (framePlace w.words.size n vs.length) (fun j k hj hk hjk => ?_) fun j v hv => ?_
  · rwa [List.length_append, List.length_replicate] at henter
  · -- parameters lie downwards under the return address, locals upwards over it
    have hle : ∀ i, i < vs.length → i ≤ n := fun i hi => (hpassed i vs[i] (by simp [hi])).1
    rw [framePlace, framePlace] at hjk
    have := hle j
    have := hle k
    split at hjk <;> split at hjk <;> omega
  · rw [framePlace]
    by_cases hj : j < vs.length
    · rw [List.getElem?_append_left hj] at hv
      obtain ⟨hle, a, ha, hshown⟩ := hpassed j v hv
      refine ⟨n - j, a, if_pos hj, ?_, hshown⟩
      rw [List.append_assoc, List.getElem?_append_left (by omega), ha]
    · rw [List.getElem?_append_right (by omega), List.getElem?_replicate] at hv
      split at hv
      · rename_i hlocal
        cases hv
        refine ⟨n + 3 + (j - vs.length), 0, by rw [if_neg hj]; omega, ?_, rfl, rfl⟩
        rw [List.getElem?_append_right (by simp; omega), List.getElem?_replicate, if_pos (by simp; omega)]
      · cases hv

/-- what the globals are does not depend on the frame -/
theorem Located.global {w' : World} {x : String} {b : Binding} (ho : World.Opens w w')
    (hx : globalScope globals x = some b) (h : Located w b (.global x)) : Located w' b (.global x) := by
  obtain ⟨i, hi, ha⟩ := h
  refine ⟨i, ho.place _ i hi, ?_⟩
  rwa [if_pos (storage_globalScope hx)] at ha ⊢

theorem Scoped.called {f : FunctionValue} {first n back : Nat} {bs : List Int}
    (hg : ∀ x b, globalScope globals x = some b → Located w b (.global x))
    (ho : World.Opens w (w.called first n back bs f.params.length f.locals.length)) (hbs : bs.length = n + 1)
    (hparams : f.params.length ≤ n + 1) (hnodup : (f.params ++ f.locals).Nodup) :
    Scoped globals (w.called first n back bs f.params.length f.locals.length)
      (f.env.cells first (f.params ++ f.locals)) (Scope.empty.extend (frameBindings f.params f.locals))
      f.locals.length := by
  refine ⟨?_, ?_, fun x b hb => (hg x b hb).global ho hb⟩
  · simp only [World.called, Array.size_append, List.size_toArray, List.length_append, List.length_cons, List.length_nil,
      List.length_replicate, hbs]
    push_cast
    ring
  have hnew := (Resolves.empty (Located (w.called first n back bs f.params.length f.locals.length)) f.env).extend
    (k := first) _ (by rwa [map_name_frameBindings]) fun i b hb => ?_
  · rwa [map_name_frameBindings] at hnew
  have hlt : i < f.params.length + f.locals.length := by
    rw [← List.length_append, ← map_name_frameBindings f.params f.locals, List.length_map]
    exact (List.getElem?_eq_some_iff.1 hb).1
  refine ⟨_, World.placing_new hlt, ?_⟩
  have hformals : (formalBindings firstFormal f.params).length = f.params.length := by
    rw [← List.length_map (f := Binding.name), map_name_formalBindings]
  rw [frameBindings] at hb
  rw [framePlace]
  by_cases hi : i < f.params.length
  · rw [List.getElem?_append_left (by omega)] at hb
    obtain ⟨-, hst, had⟩ := getElem?_formalBindings hb
    rw [hst, if_neg (by decide), had, if_pos hi]
    simp only [World.called, firstFormal, wordSize]
    push_cast [Nat.cast_sub (show i ≤ n by omega)]
    ring
  · rw [List.getElem?_append_right (by omega), hformals] at hb
    obtain ⟨-, hst, had⟩ := getElem?_blockBindings hb
    rw [hst, if_neg (by decide), had, if_neg hi, offsetAt]
    simp only [World.called, wordSize]
    push_cast
    ring

theorem Outer.called {f : FunctionValue} {first entry : Nat} (hf : Entry image globals f entry) :
    Outer (f.env.cells first (f.params ++ f.locals)) (Scope.empty.extend (frameBindings f.params f.locals)) f.body := by
  intro x hx hnone
  obtain ⟨hnew, -⟩ := Scope.extend_eq_none hnone
  rw [map_name_frameBindings] at hnew
  rw [Env.variable_cells_old hnew]
  exact hf.outer x (Expr.mem_captures.2 ⟨hnew, hx⟩)

/-- from the call to the procedure's body -/
theorem reaches_entered {l : Label} {c : Code Op} {bs : List Int} {first n pc entry params locals : Nat}
    (hcall : image.instrs[pc]? = some (.own .call)) (hp : Placed image entry (entered l locals c))
    (hbs : bs.length = n + 1) :
    ∃ start, Placed image start (c ++ [.own (.loadrc firstFormal), .own .store, .pop, .own .ret]) ∧
      image.Reaches ⟨pc, w.mem.pushes (bs ++ [w.fp, Image.base + entry])⟩
        ⟨start, (w.called first n (pc + 1) bs params locals).mem⟩ := by
  have hlt : entry < image.instrs.size := by
    simp only [entered, List.append_assoc, List.cons_append, placed_cons] at hp
    exact (Array.getElem?_eq_some_iff.1 hp.1).1
  have hmem : (w.called first n (pc + 1) bs params locals).mem =
      (framed (w.mem.pushes (bs ++ [w.fp, Image.base + (pc + 1 : Nat)])) (wordSize * (w.words.size + n + 2 : Nat))).pushes
        (List.replicate locals 0) := by
    rw [← framed_pushes, ← Memory.pushes_append, Memory.pushes_eq]
    rfl
  rw [hmem]
  rw [entered, List.append_assoc, List.append_assoc, placed_append] at hp
  obtain ⟨⟨hlabel, henter, -⟩, hp⟩ := hp
  have h₁ : image.Moves ⟨pc, w.mem.pushes (bs ++ [w.fp, Image.base + entry])⟩
      ⟨entry, w.mem.pushes (bs ++ [w.fp, Image.base + (pc + 1 : Nat)])⟩ := by
    rw [Memory.pushes_append, Memory.pushes_append]
    exact moves_call (m := (w.mem.pushes bs).push w.fp) hcall hlt
  have h₂ := (h₁.reaches.trans (Image.moves_label hlabel).reaches).trans (moves_enter henter).reaches
  have hsize : (((w.mem.pushes (bs ++ [w.fp, Image.base + ((pc + 1 : Nat) : Int)])).words.size : Nat) : Int) - 1 =
      (w.words.size + n + 2 : Nat) := by
    simp [Memory.pushes_words, World.mem, hbs]
    omega
  rw [hsize] at h₂
  by_cases hlocals : locals = 0
  · subst hlocals
    rw [Nat.cast_zero, if_pos rfl, List.nil_append] at hp
    exact ⟨_, hp, h₂⟩
  · rw [if_neg (by omega)] at hp
    exact ⟨_, hp.2, h₂.trans (moves_alloc hp.1).reaches⟩

/-- **Calls.** The call of a procedure on words that show its arguments leaves what the procedure gives. -/
theorem follows_call {f : FunctionValue} {vs : List Value} {bs : List Int} {n pc entry : Nat} {σ : Store}
    (hc : Correct image globals fuel 0) (harity : f.params.length = vs.length) (hvs : Passed image globals n vs bs)
    (hcall : image.instrs[pc]? = some (.own .call))
    (hback : Placed image (pc + 1) (dropping (n + 1 : Nat)))
    (ha : w.Agrees image globals σ) (hg : ∀ x b, globalScope globals x = some b → Located w b (.global x))
    (hf : Entry image globals f entry) :
    Follows image 0 ⟨pc, w.mem.pushes (bs ++ [w.fp, Image.base + entry])⟩
      ((setting image globals).Post w (pc + 1 + (dropping (n + 1 : Nat)).length) (Result image globals))
      (Eval.apply (Expr.eval convention fuel) f vs σ) := by
  obtain ⟨l, c, hp, hem⟩ := hf.code
  obtain ⟨hopens, hagrees⟩ := ha.called hvs
  have hparams : f.params.length ≤ n + 1 := by
    by_contra hlt
    have := (hvs.2 (n + 1) (vs.get ⟨n + 1, by omega⟩) (by simp)).1
    omega
  rw [← harity] at hopens hagrees
  have hs := Scoped.called hg hopens hvs.1 hparams hf.nodup
  obtain ⟨start, hp, hreach⟩ := reaches_entered hcall hp hvs.1
  rw [placed_append] at hp
  refine Follows.of_reaches hreach ?_
  rw [Eval.apply_eq_cells _ harity]
  have hbody := hc hem (.none _ _) (Outer.called hf) hs start _ hp.1 hagrees
  refine hbody.onward fun result σ' b hq => ?_
  obtain ⟨w', as, hl, ha', ⟨a, rfl, hv⟩, rfl⟩ := hq
  obtain ⟨hl', ha''⟩ := hopens.close ha hl ha'
  -- the words of the caller lie over the closed world, with its frame pointer and the return address among them
  have hwords : w'.mem = (framed (w.closed w').mem (wordSize * ((w.closed w').mem.words.size + n + 2 : Nat))).pushes
      (w'.words.toList.drop w.words.size) := by
    rw [← framed_pushes, ← World.mem_closed]
    have hfp := hl.fp
    have hsize : (w.closed w').mem.words.size = w.words.size := hl'.size
    rw [hsize]
    exact congrArg (framed w'.mem) hfp
  have hkept : ∀ i, n < i → i < n + 3 →
      (w'.words.toList.drop w.words.size)[i]? = (bs ++ [w.fp, Image.base + (pc + 1 : Nat)])[i]? := by
    intro i hi hi'
    rw [List.getElem?_drop, Array.getElem?_toList, hl.kept]
    · simp only [World.called]
      rw [Array.getElem?_append_right (Nat.le_add_right _ _), Nat.add_sub_cancel_left, List.getElem?_toArray,
        List.getElem?_append_left (by simp [hvs.1]; omega)]
    · intro x hx
      rcases World.of_placing hx with hx | ⟨j, -, -, hj⟩
      · have := ha.lt_size hx
        omega
      · rw [framePlace] at hj
        split at hj <;> omega
  have hreturn := reaches_return (m := (w.closed w').mem) (a := a) hp.2 hback
    (by rw [hkept (n + 1) (by omega) (by omega)]; simp [hvs.1]; rfl)
    (by rw [hkept (n + 2) (by omega) (by omega)]; simp [hvs.1])
  rw [← hwords] at hreturn
  exact ⟨_, hreturn, w.closed w', [a], hl', ha'', ⟨a, rfl, hv⟩, rfl⟩

/-- the arguments, or a place for the result -/
theorem computes_arguments {args : List Expr} {pushed : Code Op} (hc : Correct image globals fuel k)
    (he : EmitsReversed globals ρ depth args pushed) (hb : ∀ e ∈ args, e.Budget fuel k) (ho : ∀ e ∈ args, Outer env ρ e)
    (hs : Scoped globals w env ρ depth) :
    (setting image globals).Computes image k w [] (padding args ++ pushed)
      (Eval.backward (Expr.eval convention fuel env) args)
      fun _ vs bs => vs.length = args.length ∧ ∃ n, slots args = n + 1 ∧ Passed image globals n vs bs := by
  cases args with
  | nil =>
    cases he
    exact Setting.computes_cons [0] (fun _ h => Image.moves_loadc h)
      (Setting.computes_nil ⟨rfl, 0, rfl, rfl, fun i v hv => by simp at hv⟩)
  | cons arg args =>
    refine (computes_reversed hc he hb ho hs).imp fun w' vs bs _ hr => ?_
    obtain ⟨hlength, hvs⟩ := hr
    have hbs : bs.length = args.length + 1 := by
      rw [← List.length_reverse, ← hvs.length_eq, hlength, List.length_cons]
    refine ⟨hlength, args.length, by simp [slots], hbs, fun i v hv => ?_⟩
    obtain ⟨hi, rfl⟩ := List.getElem?_eq_some_iff.1 hv
    rw [hlength, List.length_cons] at hi
    refine ⟨Nat.le_of_lt_succ hi, bs.get ⟨args.length - i, by omega⟩, by simp, ?_⟩
    have hshown := hvs.get (by omega) (by rw [List.length_reverse]; omega) (i := i)
    simp only [List.get_eq_getElem, List.getElem_reverse] at hshown
    simpa [hbs] using hshown

theorem computes_call {callee : Expr} {args : List Expr} {target pushed : Code Op} (hc : Correct image globals fuel 0)
    (hargs : EmitsReversed globals ρ depth args pushed) (hcallee : Emits globals ρ (depth + slots args + 1) callee target)
    (ho : ∀ part ∈ (Expr.call callee args).children, Outer env ρ part) (hs : Scoped globals w env ρ depth) :
    (setting image globals).Computes image 0 w [] (callWith (slots args) (padding args ++ pushed) target)
      (Expr.eval convention (fuel + 1) env (.call callee args)) (Result image globals) := by
  have hcode : callWith (slots args) (padding args ++ pushed) target =
      padding args ++ pushed ++ (.own .mark :: (target ++ (.own .call :: dropping (slots args)))) := by
    simp [callWith, dropping]
  rw [hcode]
  refine Setting.computes_bind (computes_arguments hc hargs (fun _ _ => .none _ _)
    (fun e he => ho e (List.mem_cons_of_mem _ he)) hs) fun w₁ vs bs hl₁ hr => ?_
  obtain ⟨hlength, n, hslots, hvs⟩ := hr
  rw [List.nil_append]
  refine Setting.computes_cons (bs ++ [w₁.fp]) (fun pc h => ?_) ?_
  · have hmark := moves_mark (m := w₁.mem.pushes bs) h
    rw [Memory.pushes_regs] at hmark
    rw [Memory.pushes_append]
    exact hmark
  have hs₁ := (hs.leads hl₁).pushes image (bs ++ [w₁.fp])
  rw [List.length_append, hvs.1, ← hslots, List.length_singleton, Nat.cast_add, Nat.cast_one, ← add_assoc] at hs₁
  refine Setting.computes_bind (hc hcallee (.none _ _) (ho callee List.mem_cons_self) hs₁) fun w₂ v as hl₂ hr => ?_
  obtain ⟨a, rfl, hv⟩ := hr
  cases v with
  | int m => exact fun _ _ _ _ => trivial
  | function f =>
    obtain ⟨entry, rfl, hf⟩ := hv
    by_cases harity : f.params.length = args.length
    · simp only [Eval.callee, if_pos harity, pure_bind]
      intro pc σ hp ha
      have hfp : w₂.fp = w₁.fp := hl₂.fp
      rw [hslots] at hp ⊢
      rw [← hfp, List.append_assoc, List.length_cons, Nat.add_comm _ 1, ← Nat.add_assoc]
      exact follows_call hc (harity.trans hlength.symm) hvs hp.1 hp.2 ha ((hs.leads hl₁).leads hl₂).globals hf
    · simp only [Eval.callee, if_neg harity]
      exact fun _ _ _ _ => trivial

end ThreeMachines.Stack
