/-
Depths in the code of the stack machine.

Variables of blocks lie in the words over the frame pointer that are counted by the depth; the parameters of the running
procedure, or the place of its result, lie below it. Procedures stand in the stream of the code that makes them.

- `annotated`: the code of an expression leads from its depth to the next one.
- `segment_compile`: so does the program of an expression, from depth 0.
-/
import ThreeMachines.Proofs.Depths
import ThreeMachines.Proofs.Stack.Emission

namespace ThreeMachines.Stack

/-- the offset is that of a word of the frame or of a parameter -/
def InFrame (o : Option Routine) (depth offset : Int) : Prop :=
  (∃ j, 1 ≤ j ∧ j ≤ depth ∧ offset = wordSize * j) ∨
    ∃ r, o = some r ∧ ∃ i, 0 ≤ i ∧ i < max (r.params.length : Int) 1 ∧ offset = firstFormal - wordSize * i

instance : ThreeMachines.Framed Op where
  returns op := op = .ret
  exit r := r.locals.length
  Reaches
    | o, depth, .loadrc offset => InFrame o depth offset
    | _, _, _ => True
  inline := true

theorem InFrame.mono {o : Option Routine} {d d' offset : Int} (h : InFrame o d offset) (hd : d ≤ d') :
    InFrame o d' offset := by
  rcases h with ⟨j, hj, hle, rfl⟩ | h
  exacts [.inl ⟨j, hj, hle.trans hd, rfl⟩, .inr h]

theorem inFrame_offsetAt (o : Option Routine) {place depth : Int} (h : 0 ≤ place) (hd : place < depth) :
    InFrame o depth (offsetAt place) := .inl ⟨place + 1, by omega, by omega, rfl⟩

theorem inFrame_firstFormal (r : Routine) (depth : Int) : InFrame (some r) depth firstFormal :=
  .inr ⟨r, rfl, 0, le_rfl, by omega, by simp⟩

/-- the binding is that of a global, or of a word of the frame -/
def Reachable (o : Option Routine) (depth : Int) (b : Binding) : Prop :=
  b.storage ≠ .global → InFrame o depth b.address

theorem Reachable.mono {o : Option Routine} {d d' : Int} {b : Binding} (h : Reachable o d b) (hd : d ≤ d') :
    Reachable o d' b := fun hb => (h hb).mono hd

theorem reachable_block (o : Option Routine) {names : List String} {place depth : Int} (h : 0 ≤ place)
    (hd : place + names.length ≤ depth) : ∀ b ∈ blockBindings place names, Reachable o depth b := by
  induction names generalizing place with
  | nil => nofun
  | cons name names ih =>
    rw [List.length_cons] at hd
    refine List.forall_mem_cons.2 ⟨fun _ => inFrame_offsetAt o h (by omega), ih (by omega) (by omega)⟩

theorem reachable_formal (r : Routine) (depth : Int) {names : List String} {i : Int} (h : 0 ≤ i)
    (hi : i + names.length ≤ r.params.length) :
    ∀ b ∈ formalBindings (firstFormal - wordSize * i) names, Reachable (some r) depth b := by
  induction names generalizing i with
  | nil => nofun
  | cons name names ih =>
    rw [List.length_cons] at hi
    refine List.forall_mem_cons.2 ⟨fun _ => .inr ⟨r, rfl, i, h, by omega, rfl⟩, ?_⟩
    rw [show firstFormal - wordSize * i - wordSize = firstFormal - wordSize * (i + 1) by ring]
    exact ih (by omega) (by omega)

theorem reachable_frame (r : Routine) :
    ∀ b ∈ frameBindings r.params r.locals, Reachable (some r) r.locals.length b := by
  rw [frameBindings]
  refine List.forall_mem_append.2 ⟨?_, reachable_block (some r) le_rfl (by omega)⟩
  have hreach : ∀ b ∈ formalBindings (firstFormal - wordSize * (0 : Nat)) r.params, Reachable (some r) r.locals.length b :=
    reachable_formal r r.locals.length le_rfl (by omega)
  simpa using hreach

theorem reachable_over {o : Option Routine} {depth : Int} {globals : List String} {ρ : Scope}
    (h : ρ.Each (Reachable o depth)) : (ρ.over (globalScope globals)).Each (Reachable o depth) :=
  fun x b hx => by
  rw [Scope.over, Option.or_eq_some_iff] at hx
  rcases hx with hρ | ⟨-, hx⟩
  · exact h x b hρ
  · exact fun hb => absurd (storage_globalScope hx) hb

/-! ## Expressions -/

/-- the code of an expression leads from its depth to the next one -/
def Annotated (globals : List String) (F : Routine → Prop) (e : Expr) : Prop :=
  ∀ ⦃ρ : Scope⦄ ⦃o : Option Routine⦄ ⦃d : Int⦄ ⦃c : Code Op⦄, 0 ≤ d → ρ.Each (Reachable o d) → Emits globals ρ d e c →
    Segment F o c d (d + 1)

section
variable {globals : List String} {F : Routine → Prop} {ρ : Scope} {o : Option Routine} {d : Int} {c : Code Op}

theorem segment_zero (hd : 0 ≤ d) : Segment F o zero d (d + 1) := .loadc hd

/-- the address of a variable -/
theorem segment_push {b : Binding} (hd : 0 ≤ d) (h : Reachable o d b) : Segment F o [push b] d (d + 1) := by
  rw [push]
  split
  · exact .loadc hd
  · rename_i hb
    exact .own hd rfl rfl (h hb)

theorem segment_store (hd : 0 ≤ d) : Segment F o ([.own .store] : Code Op) (d + 1 + 1) (d + 1) :=
  .own (by omega) (Int.add_neg_cancel_right _ 1) rfl trivial

/-- the top stored at an offset from the frame pointer and dropped -/
theorem segment_write {offset : Int} (hd : 0 ≤ d) (h : InFrame o (d + 1) offset) :
    Segment F o ([.own (.loadrc offset), .own .store, .pop] : Code Op) (d + 1) d := by
  have haddress : Segment F o ([.own (.loadrc offset)] : Code Op) (d + 1) (d + 1 + 1) := .own (by omega) rfl rfl h
  exact haddress.append ((segment_store hd).append (.pop hd))

theorem segment_alloc {n : Nat} (hd : 0 ≤ d) : Segment F o ([.own (.alloc (wordSize * n))] : Code Op) d (d + n) :=
  .own hd (by simp [Operation.effect, wordSize]) rfl trivial

theorem segment_sequence {items : List Expr} (hi : ∀ e ∈ items, Annotated globals F e) (hd : 0 ≤ d)
    (hρ : ρ.Each (Reachable o d)) (h : EmitsSequence globals ρ d items c) : Segment F o c d (d + 1) := by
  induction items generalizing c with
  | nil => cases h
  | cons item items ih =>
    have hitem := hi item List.mem_cons_self
    cases h with
    | last h => exact hitem hd hρ h
    | cons h hrest =>
      exact ((hitem hd hρ h).append (.pop hd)).append (ih (fun e he => hi e (List.mem_cons_of_mem _ he)) hrest)

theorem segment_optional {e : Option Expr} (hi : ∀ part ∈ e.toList, Annotated globals F part) (hd : 0 ≤ d)
    (hρ : ρ.Each (Reachable o d)) (h : EmitsOptional globals ρ d e c) : Segment F o c d (d + 1) := by
  cases h with
  | none => exact segment_zero hd
  | some h => exact hi _ (by simp) hd hρ h

/-- the values of a block go to words that are there -/
theorem segment_initial {bindings : List (String × Expr)} {place : Int}
    (hi : ∀ b ∈ bindings, Annotated globals F b.2) (hplace : 0 ≤ place) (hd : place + bindings.length ≤ d)
    (hρ : ρ.Each (Reachable o d)) (h : EmitsInitial globals ρ d place bindings c) : Segment F o c d d := by
  induction bindings generalizing c place with
  | nil =>
    cases h
    exact .nil
  | cons binding rest ih =>
    cases h with
    | cons h hrest =>
      rw [List.length_cons] at hd
      have hd₀ : 0 ≤ d := by omega
      have hwrite := segment_write (F := F) hd₀ (inFrame_offsetAt o hplace (by omega))
      exact ((hi _ List.mem_cons_self hd₀ hρ h).append hwrite).append
        (ih (fun b hb => hi b (List.mem_cons_of_mem _ hb)) (by omega) (by omega) hrest)

theorem segment_reversed {args : List Expr} (hi : ∀ e ∈ args, Annotated globals F e) (hd : 0 ≤ d)
    (hρ : ρ.Each (Reachable o d)) (h : EmitsReversed globals ρ d args c) : Segment F o c d (d + args.length) := by
  induction args generalizing c with
  | nil =>
    cases h
    simpa using .nil
  | cons arg args ih =>
    cases h with
    | cons hlater h =>
      have hfirst := hi arg List.mem_cons_self (by omega) (hρ.imp fun b hb => hb.mono (by omega)) h
      rw [List.length_cons, Nat.cast_add, Nat.cast_one, ← Int.add_assoc]
      exact (ih (fun e he => hi e (List.mem_cons_of_mem _ he)) hlater).append hfirst

/-- the arguments, or a place for the result -/
theorem segment_padding {args : List Expr} (hi : ∀ e ∈ args, Annotated globals F e) (hd : 0 ≤ d)
    (hρ : ρ.Each (Reachable o d)) (h : EmitsReversed globals ρ d args c) :
    Segment F o (padding args ++ c) d (d + slots args) := by
  cases args with
  | nil =>
    cases h
    exact (segment_zero hd).append .nil
  | cons arg args =>
    have hslots : slots (arg :: args) = (arg :: args).length := by simp [slots]
    rw [hslots]
    exact segment_reversed hi hd hρ h

theorem segment_callWith {count : Nat} {args callee : Code Op} (hcount : 1 ≤ count) (hd : 0 ≤ d)
    (hargs : Segment F o args d (d + count)) (hcallee : Segment F o callee (d + count + 1) (d + count + 1 + 1)) :
    Segment F o (callWith count args callee) d (d + 1) := by
  have hd' : 0 ≤ d + count := by omega
  have hmark : Segment F o ([.own .mark] : Code Op) (d + count) (d + count + 1) := .own hd' rfl rfl trivial
  have hcall : Segment F o ([.own .call] : Code Op) (d + count + 1 + 1) (d + count + 1) :=
    .own (by omega) (Int.add_neg_cancel_right _ 1) rfl trivial
  have hslide : Segment F o (if 1 < (count : Int) then [.own (.slide (wordSize * (count - 1)) wordSize)] else [] : Code Op)
      (d + count) (d + 1) := by
    split
    · exact .own hd' (by simp [Operation.effect, wordSize]) rfl trivial
    · rw [show d + (count : Int) = d + 1 by omega]
      exact .nil
  exact (((hargs.append hmark).append hcallee).append (hcall.append (.pop hd'))).append hslide

/-- a procedure stands in the stream, and reaches its parameters and its locals -/
theorem segment_procedure {params locals : List String} {body : Expr} {entry stop : Label} (hi : Annotated globals F body)
    (hF : F ⟨entry, params, locals⟩) (hd : 0 ≤ d) (h : EmitsProcedure globals ρ params locals body c) :
    Segment F o (procedure entry stop locals.length c) d (d + 1) := by
  obtain ⟨-, -, hbody⟩ := h
  have hn : 0 ≤ (locals.length : Int) := by omega
  have henter : Segment F (some ⟨entry, params, locals⟩) ([.own .enter] : Code Op) 0 0 := .own le_rfl rfl rfl trivial
  have halloc : Segment F (some ⟨entry, params, locals⟩)
      (if (locals.length : Int) = 0 then [] else [.own (.alloc (wordSize * locals.length))] : Code Op) 0
      locals.length := by
    split
    · rename_i hzero
      rw [hzero]
      exact .nil
    · simpa using segment_alloc (d := 0) (n := locals.length) le_rfl
  have hcode := hi hn (Scope.Each.empty.extend (reachable_frame ⟨entry, params, locals⟩)) hbody
  have hwrite := segment_write (F := F) hn (inFrame_firstFormal ⟨entry, params, locals⟩ (locals.length + 1))
  have hall := ((henter.append halloc).append hcode).append hwrite
  have hinline : Segment F o ([.jump stop, .label entry] ++ _ ++ [.own .ret, .label stop, .loadc (.addr entry)] : Code Op)
      d (d + 1) := Segment.inline hF hall rfl hn trivial hd
  simpa [procedure] using hinline

end

/-- **Expressions.** The code of an expression leads from its depth to the next one; the procedures in it come from function
literals. -/
theorem annotated (globals : List String) {root : Expr} (e : Expr) :
    e.Within root → Annotated globals (fun r => r.OccursIn root) e := by
  refine Expr.byParts (motive := fun e => e.Within root → Annotated globals _ e) (fun e hparts hroot => ?_) e
  have ih := fun part hp => hparts part hp (.head hp hroot)
  intro ρ o d c hd hρ h
  have hd' : 0 ≤ d + 1 := by omega
  have hρ' : ρ.Each (Reachable o (d + 1)) := hρ.imp fun b hb => hb.mono (by omega)
  cases h with
  | number | bool => exact .loadc hd
  | var hb => exact (segment_push hd (reachable_over hρ _ _ hb)).append (.own hd' (Int.add_zero _) rfl trivial)
  | unary h => exact (ih _ (by simp [Expr.children]) hd hρ h).append (.unary hd)
  | binary hl hr =>
    exact ((ih _ (by simp [Expr.children]) hd hρ hl).append (ih _ (by simp [Expr.children]) hd' hρ' hr)).append (.binary hd)
  | assign hb h =>
    exact ((ih _ (by simp [Expr.children]) hd hρ h).append (segment_push hd' (reachable_over hρ' _ _ hb))).append
      (segment_store hd)
  | seq h => exact segment_sequence (fun part hp => ih part hp) hd hρ h
  | ite hc ht he =>
    exact segment_ifThenElse hd (ih _ (by simp [Expr.children]) hd hρ hc) (ih _ (by simp [Expr.children]) hd hρ ht)
      (segment_optional (fun part hp => ih part (by simp_all [Expr.children])) hd hρ he)
  | whileDo hc hb =>
    exact segment_whileDo hd (segment_zero hd) (ih _ (by simp [Expr.children]) hd' hρ' hc)
      (ih _ (by simp [Expr.children]) hd hρ hb)
  | doWhile hb hc =>
    exact segment_doWhile hd (ih _ (by simp [Expr.children]) hd hρ hb) (ih _ (by simp [Expr.children]) hd' hρ' hc)
  | loop hc hb =>
    exact segment_countedLoop hd (segment_zero hd) (ih _ (by simp [Expr.children]) hd' hρ' hc)
      (ih _ (by simp [Expr.children]) hd' hρ' hb)
  | @block _ _ bindings body values result _ hvalues hresult =>
    have hn : 0 ≤ d + bindings.length := by omega
    have hinner : (ρ.extend (blockBindings d (bindings.map Prod.fst))).Each (Reachable o (d + bindings.length)) :=
      (hρ.imp fun b hb => hb.mono (by omega)).extend (reachable_block o hd (by simp))
    have hv := segment_initial (fun b hb => ih b.2 (List.mem_cons_of_mem _ (List.mem_map_of_mem hb))) hd le_rfl hinner
      hvalues
    have hr := ih body (by simp [Expr.children]) hn hinner hresult
    have hslide : Segment (fun r => r.OccursIn root) o ([.own (.slide (wordSize * bindings.length) wordSize)] : Code Op)
        (d + bindings.length + 1) (d + 1) :=
      .own (by omega) (by simp [Operation.effect, wordSize]; omega) rfl trivial
    exact (((segment_alloc hd).append hv).append hr).append hslide
  | @lambda _ _ params body entry stop _ h =>
    exact segment_procedure (ih _ (by simp [Expr.children])) ⟨body, .inr ⟨rfl, hroot⟩⟩ hd h
  | @proc _ _ params locals body entry stop _ h =>
    exact segment_procedure (ih _ (by simp [Expr.children])) ⟨body, .inl hroot⟩ hd h
  | @call _ _ callee args pushed target hargs hcallee =>
    refine segment_callWith (by simp [slots]) hd
      (segment_padding (fun part hp => ih part (List.mem_cons_of_mem _ hp)) hd hρ hargs) ?_
    exact ih callee (by simp [Expr.children]) (by omega) (hρ.imp fun b hb => hb.mono (by omega)) hcallee

/-- **Programs.** The program of an expression leads from depth 0 to depth 1. -/
theorem segment_compile {e : Expr} {p : Program Op} (h : compile .stack e = .ok p) :
    Segment (fun r => r.OccursIn e) none p.code 0 1 := by
  obtain ⟨-, globals, -, -, hcode⟩ := emits_compile h
  exact annotated globals e .refl le_rfl .empty hcode

/-- procedures stand in the stream, so there are no bodies beside it -/
theorem bodies_compile {e : Expr} {p : Program Op} (h : compile .stack e = .ok p) : p.lambdas.bodies = [] := by
  obtain ⟨d, hgen, -⟩ := generate_of_compile h
  simp only [ThreeMachines.generate, generate, Gen.bind_ok, Gen.pure_ok] at hgen
  obtain ⟨_, _, -, _, _, -, rfl, -⟩ := hgen
  rfl

end ThreeMachines.Stack
