/-
Correctness of the closure machine's code.

- `correct`: the code of every expression follows its evaluation, by induction on the fuel, if functions may copy what they
  capture or if there are no functions.
- `follows_compile`: the run of a compiled program follows the evaluation of its expression, from the start on.
- `settles_of_yields_calleeLast`: a compiled program whose functions may copy what they capture settles on what its
  expression yields, a number or an arithmetic fault. Arguments are evaluated before the callee, and all variables start
  at 0.
-/
import ThreeMachines.Proofs.Closure.Calls

namespace ThreeMachines.Closure

open Heap (address)

/-! ## Expressions -/

/-- **Expressions.** The code of every expression follows its evaluation. -/
theorem correct {image : Image Op} {globals : List String} {junk : Bool} (hl : image.WellLabelled)
    (hnodup : globals.Nodup) (fuel k : Nat) : Correct image globals junk fuel k := by
  induction fuel generalizing k with
  | zero =>
    intro w depth env ρ e c _ hb _ _ pc σ _ _
    rw [hb.eq_zero]
    exact Image.RunsOn.zero _
  | succ fuel ih =>
    intro w depth env ρ e c he hb ht hs
    have hc := ih k
    have hpart : ∀ part ∈ e.children, part.Budget fuel k := fun part => hb.child
    have htame : ∀ part ∈ e.children, Tame junk part := fun part => ht.child
    have hscoped : e.binders = [] → ∀ part ∈ e.children, Scoped globals junk w depth env ρ part :=
      fun hbind part hp => hs.child hp hbind
    cases he with
    | number value => exact computes_number (isWord_toInt value)
    | bool value => exact computes_number (by cases value <;> rfl)
    | var hname => exact computes_var hname hs
    | unary he =>
      exact computes_unary hc he (hpart _ (by simp [Expr.children])) (htame _ (by simp [Expr.children]))
        (hscoped rfl _ (by simp [Expr.children]))
    | binary hel her => exact computes_binary hc hel her hpart ht hs
    | assign hname hstorage he =>
      exact computes_assign hnodup hc hname hstorage he (hpart _ (by simp [Expr.children]))
        (htame _ (by simp [Expr.children])) hs
    | seq he => exact computes_sequence hc he hpart htame (hscoped rfl) _
    | ite hcond hthen helse => exact computes_ite hl hc hcond hthen helse hpart ht hs
    | whileDo hcond hbody =>
      exact Setting.computes_whileDo hl hb.le (computes_number rfl)
        (fun w' v a hl' hv => computes_over hc hcond (hpart _ (by simp [Expr.children]))
          (htame _ (by simp [Expr.children])) ((hscoped rfl _ (by simp [Expr.children])).leads hl') hv)
        (fun w' hl' => hc hbody (hpart _ (by simp [Expr.children])) (htame _ (by simp [Expr.children]))
          ((hscoped rfl _ (by simp [Expr.children])).leads hl'))
    | doWhile hbody hcond =>
      exact Setting.computes_doWhile hl hb.le
        (fun w' v a hl' hv => computes_over hc hcond (hpart _ (by simp [Expr.children]))
          (htame _ (by simp [Expr.children])) ((hscoped rfl _ (by simp [Expr.children])).leads hl') hv)
        (fun w' hl' => hc hbody (hpart _ (by simp [Expr.children])) (htame _ (by simp [Expr.children]))
          ((hscoped rfl _ (by simp [Expr.children])).leads hl'))
    | loop hcount hbody =>
      show (setting image globals junk).Computes image k w [] _
        (Expr.eval (convention globals.length junk) fuel env _ >>= fun v =>
          Eval.word v >>= fun n => Eval.loop _ ((convention globals.length junk).passes n) (.int 0)) _
      rw [← bind_assoc]
      exact Setting.computes_countedLoop hl (fun _ _ _ _ hv => hv.knows ⟨fun _ _ => id, fun _ _ => id, fun _ _ => id⟩)
        (fun n hn => passes_convention _ hn) (computes_number rfl)
        (fun w' v a hl' hv => computes_over hc hcount (hpart _ (by simp [Expr.children]))
          (htame _ (by simp [Expr.children])) ((hscoped rfl _ (by simp [Expr.children])).leads hl') hv)
        (fun w' m hl' => hc hbody (hpart _ (by simp [Expr.children])) (htame _ (by simp [Expr.children]))
          (((hscoped rfl _ (by simp [Expr.children])).leads hl').push m))
    | block hnames hvalues hbody => exact computes_local hc hnames hvalues hbody hpart ht hs
    | lambda hem =>
      obtain rfl := ht.junk_eq_false rfl
      exact computes_literal (e := .lambda _ _) rfl (.lambda hem) ht hs
    | proc hem =>
      obtain rfl := ht.junk_eq_false rfl
      exact computes_literal (e := .proc _ _ _) rfl (.proc hem) ht hs
    | call hargs hcallee =>
      obtain rfl := hb.of_not_functionFree rfl
      cases junk with
      | true => cases Expr.everywhere_self ht
      | false => exact computes_call hl (ih 0) hargs hcallee ht hs

/-! ## Programs -/

/-- the world in which a program has made the cells of its globals and the vector that holds them -/
def World.start (count : Nat) : World where
  words := #[]
  regs := ⟨address (2 * count), -1⟩
  heap := (Heap.empty.append (List.replicate (2 * count) 0)).append (count :: pairs 0 count)
  next := 0
  slot _ := none
  constant _ := none
  fixed q := if 2 * count ≤ q then ((count : Int) :: pairs 0 count)[q - 2 * count]? else none
  function _ := none

theorem World.start_heap (count q : Nat) :
    (World.start count).heap.words[q]? =
      if q < 2 * count then some 0 else ((count : Int) :: pairs 0 count)[q - 2 * count]? := by
  simp only [World.start, Heap.append, Heap.empty]
  split
  · rename_i hq
    rw [Array.getElem?_append_left (by simpa using hq)]
    simp [hq]
  · rename_i hq
    rw [Array.getElem?_append_right (by simpa using hq)]
    simp

theorem World.agrees_start (image : Image Op) (globals : List String) (junk : Bool) :
    (World.start globals.length).AgreesBut image globals junk (fun _ => False) .empty where
  next := rfl
  apart _ _ _ h := nomatch h
  known _ _ h := nomatch h
  holds _ _ h := nomatch h
  constant _ _ h := nomatch h
  shared i name hi := by
    have hlt := (List.getElem?_eq_some_iff.1 hi).1
    exact ⟨0, by rw [World.start_heap, if_pos (by omega)], rfl, .inr rfl⟩
  fixed q a hq := by
    rw [World.start] at hq
    simp only [Option.ite_none_right_eq_some] at hq
    rw [World.start_heap, if_neg (by omega), hq.2]
  loose i hi := if_neg (by omega)
  made _ _ h := nomatch h
  pending_lt _ h := h.elim
  size _ := by
    simp only [World.start, Heap.size_append, List.length_replicate, List.length_cons, length_pairs, Heap.empty]
    simp
    omega

theorem getElem?_globalBindings {place : Int} {names : List String} {i : Nat} {b : Binding}
    (h : (globalBindings place names)[i]? = some b) :
    names[i]? = some b.name ∧ b.storage = .global ∧ b.address = place + i := by
  induction names generalizing place i with
  | nil => simp [globalBindings] at h
  | cons name names ih =>
    cases i with
    | zero =>
      obtain rfl : ⟨name, .global, place⟩ = b := by simpa [globalBindings] using h
      exact ⟨rfl, rfl, (Int.add_zero _).symm⟩
    | succ i =>
      obtain ⟨hi, hs, ha⟩ := ih (by simpa [globalBindings] using h)
      refine ⟨hi, hs, ?_⟩
      rw [ha]
      push_cast
      ring

theorem scoped_start (globals : List String) (junk : Bool) (e : Expr) :
    Scoped globals junk (World.start globals.length) 0 [] (Scope.empty.extend (globalBindings 0 globals)) e where
  finds x _ _ b hb := by
    obtain ⟨hmem, rfl⟩ := Scope.mem_of_extend_empty hb
    obtain ⟨j, hj⟩ := List.mem_iff_getElem?.1 hmem
    obtain ⟨hname, hs, had⟩ := getElem?_globalBindings hj
    have hlt := (List.getElem?_eq_some_iff.1 hname).1
    refine .vector (g := 2 * globals.length) (j := j) (show _ = if true then _ else _ from hs) rfl
      (by rw [had, Int.zero_add])
      ⟨address (2 * j), ?_, .shared hname⟩
    simp only [World.start]
    rw [if_pos (by omega), show 2 * globals.length + 1 + j - 2 * globals.length = j + 1 by omega, List.getElem?_cons_succ,
      getElem?_pairs 0 hlt, Nat.zero_add]
  loose _ _ _ _ _ _ _ h := nomatch h
  firm _ _ _ _ h := nomatch h

/-- the globals get their cells before all else -/
theorem reaches_globals {image : Image Op} {pc count : Nat}
    (hp : Placed image pc [.own (.alloc count), .own (.mkvec count), .own .setgp]) :
    image.Reaches ⟨pc, ⟨#[], .empty, ⟨0, -1⟩⟩⟩ ⟨pc + 1 + 1 + 1, (World.start count).mem⟩ := by
  obtain ⟨halloc, hvec, hsetgp, -⟩ := hp
  have h₁ := moves_alloc (m := ⟨#[], .empty, ⟨0, -1⟩⟩) halloc
  rw [← length_pairs 0 count] at hvec
  have h₂ := moves_mkvec (m := Memory.onHeap ⟨#[], .empty, ⟨0, -1⟩⟩ (Heap.empty.append (List.replicate (2 * count) 0)))
    (pairs 0 count) hvec
  have h₃ := (h₁.reaches.trans h₂.reaches).trans (moves_setgp hsetgp).reaches
  rw [length_pairs, Memory.onHeap_heap, Memory.onHeap_onHeap, Heap.size_append, List.length_replicate,
    show Heap.empty.words.size + 2 * count = 2 * count from Nat.zero_add _] at h₃
  exact h₃

/-- **Programs.** The run of a compiled program follows the evaluation of its expression. -/
theorem follows_compile {e : Expr} {p : Program Op} (junk : Bool) {fuel k : Nat} (h : compile .closure e = .ok p)
    (ht : Tame junk e) (hb : e.Budget fuel k) :
    Follows (Image.ofProgram p) k p.startPoint (p.Halts (ρ := Registers))
      (e.eval (convention e.globalNames.length junk) fuel [] .empty) := by
  obtain ⟨hcheck, hnodup, entry, hcode, hem⟩ := emits_compile h
  have hplaced := Image.placed_entry p
  rw [hcode, placed_append] at hplaced
  refine Follows.of_reaches (reaches_globals hplaced.1) ?_
  have hf := correct (Image.wellLabelled_of_checkLabels hcheck) hnodup fuel k hem hb ht (scoped_start _ junk e) _ _
    hplaced.2 (World.agrees_start _ _ _)
  refine hf.imp fun v σ b hq n hn => ?_
  obtain ⟨w', bs, -, -, ⟨a, rfl, hv⟩, rfl⟩ := hq
  subst hn
  obtain ⟨rfl, -⟩ := hv
  refine ⟨w'.mem, ?_⟩
  rw [Image.stop_ofProgram, hcode, List.length_append, ← Nat.add_assoc]
  rfl

/-- **Correctness of the closure machine.** Where functions may copy what they capture, a compiled program settles on what
its expression yields. -/
theorem settles_of_yields_calleeLast {e : Expr} {p : Program Op} {result : Except Fault Int} (h : compile .closure e = .ok p)
    (ht : e.capturesByValue) (hy : e.Yields (.usual .calleeLast) result) : p.Settles result :=
  Program.settles_of_follows (fun fuel => follows_compile false h ht (.none e fuel)) hy

/-- two functions of one block that call each other -/
def evenAndOdd : Expr :=
  .block
    [("even", .lambda ["n"] (.ite (.binary .eq (.var "n") (.number 0)) (.number 1)
      (some (.call (.var "odd") [.binary .sub (.var "n") (.number 1)])))),
     ("odd", .lambda ["n"] (.ite (.binary .eq (.var "n") (.number 0)) (.number 0)
      (some (.call (.var "even") [.binary .sub (.var "n") (.number 1)]))))]
    (.call (.var "even") [.number 3])

theorem evenAndOdd_settles : ∃ p, compile .closure evenAndOdd = .ok p ∧ evenAndOdd.capturesByValue ∧
    evenAndOdd.Yields (.usual .calleeLast) (.ok 0) ∧ p.Settles (.ok 0) := by
  obtain ⟨p, hp⟩ := exists_of_isOk (m := .closure) (e := evenAndOdd) (by decide +kernel)
  have hc : evenAndOdd.capturesByValue := by decide +kernel
  have hy : evenAndOdd.Yields (.usual .calleeLast) (.ok 0) := ⟨40, by decide +kernel⟩
  exact ⟨p, hp, hc, hy, settles_of_yields_calleeLast hp hc hy⟩

end ThreeMachines.Closure
