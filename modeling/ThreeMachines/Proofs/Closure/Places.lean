/-
The places of a block's variables on the closure machine.

A block first makes a place for each variable, with the address of a pair of words on the heap. `Progress` says how far it
has come with the values: the first variables are on the stack, and the places of the others wait for theirs.

- `reaches_stored`, `reaches_tied`: the next value is written into its place; a function is copied into the pair.
-/
import ThreeMachines.Proofs.Closure.Functions

namespace ThreeMachines.Closure

open Heap (address)

/-- variable `j` of a block over `w₀` may get a value in its place -/
structure Waits (w₀ w : World) (j : Nat) : Prop where
  next : w₀.next + j < w.next
  place : w₀.words.size + j < w.words.size
  own : ∀ i, w.slot (w₀.next + j) = some i → i = w₀.words.size + j
  free : ∀ k, w.slot k = some (w₀.words.size + j) → k = w₀.next + j
  constant : w.constant (w₀.next + j) = none

/-- the pair whose address lies in the place of variable `j` of a block over `w₀` is not in use yet -/
structure Vacant (w₀ w : World) (j : Nat) : Prop where
  word : w.words[w₀.words.size + j]? = some (address (w₀.heap.words.size + 2 * j))
  bound : w₀.heap.words.size + 2 * j + 1 < w.heap.words.size
  first : w.fixed (w₀.heap.words.size + 2 * j) = none
  second : w.fixed (w₀.heap.words.size + 2 * j + 1) = none

variable {image : Image Op} {globals : List String} {junk : Bool} {pending : Nat → Prop} {w₀ w w' : World} {σ : Store}
  {v : Value} {a b : Int} {j n : Nat} {f : FunctionValue}

theorem Waits.leads (h : Waits w₀ w j) (hl : World.Leads w w') : Waits w₀ w' j where
  next := h.next.trans_le hl.grows.next
  place := by rw [hl.size]; exact h.place
  own := by rw [hl.slot]; exact h.own
  free := by rw [hl.slot]; exact h.free
  constant := (hl.grows.constant_old _ h.next).trans h.constant

theorem Vacant.leads (h : Vacant w₀ w j) (hl : World.Leads w w')
    (hword : w'.words[w₀.words.size + j]? = w.words[w₀.words.size + j]?) : Vacant w₀ w' j where
  word := hword.trans h.word
  bound := h.bound.trans_le hl.grows.heap
  first := (hl.grows.fixed_old _ (by have := h.bound; omega)).trans h.first
  second := (hl.grows.fixed_old _ h.bound).trans h.second

/-- one value does not touch the place of another -/
theorem Waits.put {c : Option Value} (h : Waits w₀ w j) (hj : n ≠ j) :
    Waits w₀ (w.put (w₀.next + n) (w₀.words.size + n) a c) j where
  next := h.next
  place := h.place.trans_eq Array.size_setIfInBounds.symm
  own i hi := by
    simp only [World.put] at hi
    rw [if_neg (by omega)] at hi
    exact h.own i hi
  free k hk := by
    simp only [World.put] at hk
    split at hk
    · have := Option.some.inj hk
      omega
    · exact h.free k hk
  constant := (if_neg (by omega)).trans h.constant

theorem Vacant.put {c : Option Value} (h : Vacant w₀ w j) (hj : n ≠ j) :
    Vacant w₀ (w.put (w₀.next + n) (w₀.words.size + n) a c) j where
  word := (Array.getElem?_setIfInBounds_ne (by omega)).trans h.word
  bound := h.bound
  first := h.first
  second := h.second

theorem Vacant.fill (h : Vacant w₀ w j) (hj : n ≠ j) : Vacant w₀ (w.fill (w₀.heap.words.size + 2 * n) a b) j where
  word := h.word
  bound := h.bound.trans_eq (by simp [World.fill])
  first := (World.fill_fixed_ne (by omega) (by omega)).trans h.first
  second := (World.fill_fixed_ne (by omega) (by omega)).trans h.second

/-- a single pair that is a function -/
def World.only (p : Nat) (f : FunctionValue) (q : Nat) : Option FunctionValue := if q = p then some f else none

theorem World.only_new {p : Nat} (h : w.function p = none) (q : Nat) (hq : w.function q ≠ none) : only p f q = none :=
  if_neg fun hqp : q = p => hq (hqp ▸ h)

/-! ## Values in order -/

/-- the first `done` variables of a block over `w₀` have their values. Without functions all of them have one. -/
structure Progress (junk : Bool) (w₀ w : World) (names captured : List String) (done : Nat) : Prop where
  filling : Filling (fun j => j < done ∨ junk = true) w₀ w names captured
  regs : w.regs = w₀.regs
  waits : ∀ j, done ≤ j → j < names.length → Waits w₀ w j
  /-- nothing is known of the pairs, and nothing lies in the places that wait -/
  vacant : junk = false → ∀ j, done ≤ j → j < names.length → Vacant w₀ w j ∧
    w.function (w₀.heap.words.size + 2 * j) = none ∧ ∀ k, w.slot k ≠ some (w₀.words.size + j)

namespace Progress

variable {names captured : List String} {done : Nat} {x : String}

theorem leads (h : Progress junk w₀ w names captured done) (hl : World.Leads w w') :
    Progress junk w₀ w' names captured done where
  filling := h.filling.leads hl
  regs := hl.regs.trans h.regs
  waits j hd hj := (h.waits j hd hj).leads hl
  vacant hjunk j hd hj := by
    obtain ⟨hvacant, hfunction, hslot⟩ := h.vacant hjunk j hd hj
    refine ⟨hvacant.leads hl ?_, ?_, by rwa [hl.slot]⟩
    · exact hl.grows.kept _ (h.waits j hd hj).place hslot
    · rw [hl.grows.function_old _ (by have := hvacant.bound; omega), hfunction]

/-- the value of the next variable; it is constant if it is captured -/
theorem put {c : Option Value} (h : Progress junk w₀ w names captured done) (hx : names[done]? = some x)
    (hc : x ∉ captured → c = none) (hc' : x ∈ captured → ∃ v, c = some v) :
    Progress junk w₀ (w.put (w₀.next + done) (w₀.words.size + done) a c) names captured (done + 1) := by
  have hlt := (List.getElem?_eq_some_iff.1 hx).1
  have hw := h.waits done le_rfl hlt
  refine ⟨⟨h.filling.grows.put (Nat.le_add_right _ _) (Nat.le_add_right _ _) hw.constant hw.own, ?_, h.filling.next,
    fun j hj hr => ?_, fun j y hy hno => ?_, fun j y hy hin hr => ?_⟩, h.regs, fun j hd hj => ?_, fun hjunk j hd hj => ?_⟩
  · exact Array.size_setIfInBounds.trans h.filling.size
  · simp only [World.put]
    by_cases hjd : j = done
    · rw [if_pos (by rw [hjd]), hjd]
    · rw [if_neg (by omega)]
      exact h.filling.slot j hj (hr.imp_left fun hr => by omega)
  · simp only [World.put]
    by_cases hjd : j = done
    · subst hjd
      obtain rfl := Option.some.inj (hx.symm.trans hy)
      rw [if_pos rfl, hc hno]
    · rw [if_neg (by omega)]
      exact h.filling.loose j y hy hno
  · simp only [World.put]
    by_cases hjd : j = done
    · subst hjd
      obtain rfl := Option.some.inj (hx.symm.trans hy)
      rw [if_pos rfl]
      exact hc' hin
    · rw [if_neg (by omega)]
      exact h.filling.firm j y hy hin (hr.imp_left fun hr => by omega)
  · exact (h.waits j (by omega) hj).put (by omega)
  · obtain ⟨hvacant, hfunction, hslot⟩ := h.vacant hjunk j (by omega) hj
    refine ⟨hvacant.put (by omega), hfunction, fun k hk => ?_⟩
    simp only [World.put] at hk
    split at hk
    · have := Option.some.inj hk
      omega
    · exact hslot k hk

theorem fill (h : Progress junk w₀ w names captured done) (hj : j < done)
    (hfirst : w.fixed (w₀.heap.words.size + 2 * j) = none) (hsecond : w.fixed (w₀.heap.words.size + 2 * j + 1) = none) :
    Progress junk w₀ (w.fill (w₀.heap.words.size + 2 * j) a b) names captured done where
  filling := { h.filling with grows := h.filling.grows.fill (Nat.le_add_right _ _) hfirst hsecond }
  regs := h.regs
  waits i hd hi := { h.waits i hd hi with }
  vacant hjunk i hd hi := by
    obtain ⟨hvacant, hrest⟩ := h.vacant hjunk i hd hi
    exact ⟨hvacant.fill (by omega), hrest⟩

theorem named (h : Progress junk w₀ w names captured done) (hj : j < done)
    (hnew : w.function (w₀.heap.words.size + 2 * j) = none) :
    Progress junk w₀ (w.named (World.only (w₀.heap.words.size + 2 * j) f)) names captured done where
  filling := { h.filling with grows := h.filling.grows.named (World.only_new hnew) fun p hp => if_neg (by omega) }
  regs := h.regs
  waits i hd hi := { h.waits i hd hi with }
  vacant hjunk i hd hi := by
    obtain ⟨hvacant, hfunction, hslot⟩ := h.vacant hjunk i hd hi
    refine ⟨{ hvacant with }, ?_, hslot⟩
    simp only [World.named, World.only]
    rw [if_neg (by omega), Option.none_or, hfunction]

/-- all variables have their values -/
theorem finished (h : Progress junk w₀ w names captured done) (hd : names.length ≤ done) :
    Filling (fun _ => True) w₀ w names captured :=
  { h.filling with
    slot := fun j hj _ => h.filling.slot j hj (.inl (hj.trans_le hd))
    firm := fun j x hx hin _ => h.filling.firm j x hx hin (.inl ((List.getElem?_eq_some_iff.1 hx).1.trans_le hd)) }

end Progress

/-! ## Writing values -/

section
variable {depth : Int} {env : Env} {ρ : Scope} {value : Expr} {c : Code Op} {pc i p : Nat}

/-- **Functions in their places.** The function that a literal makes is copied into the pair whose address a place holds. -/
theorem reaches_refill (hfun : value.isFunction) (he : Emits image ρ depth value c)
    (hp : Placed image pc (c ++ [.own (.refill n)])) (ht : value.capturesByValue)
    (hs : Scoped globals false w depth env ρ value) (ha : w.AgreesBut image globals false pending σ)
    (hi : i + n = w.words.size) (hword : w.words[i]? = some (address p)) (hbound : p + 1 < w.heap.words.size)
    (hfirst : w.fixed p = none) (hsecond : w.fixed (p + 1) = none) :
    ∃ w' a b, World.Leads w w' ∧ w'.words = w.words ∧ w'.AgreesBut image globals false pending σ ∧
      (w'.fill p a b).Made image globals false p (literal env value) ∧
      image.Reaches ⟨pc, w.mem⟩ ⟨pc + c.length + 1, (w'.fill p a b).mem⟩ := by
  rw [placed_append] at hp
  obtain ⟨w', q, hl, ha', hq, hwords, -, hmade, hreach⟩ := reaches_literal hfun he hp.1 ht hs ha
  obtain ⟨entry, g, shared, hq₁, hq₂, hrest⟩ := hmade
  have hfirst' : w'.fixed p = none := (hl.grows.fixed_old _ (by omega)).trans hfirst
  have hsecond' : w'.fixed (p + 1) = none := (hl.grows.fixed_old _ hbound).trans hsecond
  have hk : World.Knows w' (w'.fill p (Image.base + entry) (address g)) := World.knows_fill hfirst' hsecond'
  refine ⟨w', Image.base + entry, address g, hl, hwords, ha', ?_, hreach.trans ?_⟩
  · refine ((World.Made.knows ⟨entry, g, shared, hq₁, hq₂, hrest⟩ hk).copy ?_ ?_)
    · rw [World.fill_fixed_first, hk.fixed _ _ hq₁]
    · rw [World.fill_fixed_second, hk.fixed _ _ hq₂]
  · exact (moves_refill (m := w'.mem) hp.2.1 (by rw [World.mem, hwords]; exact_mod_cast hi)
      (by rw [World.mem, hwords, hword]) (ha'.fixed _ _ hq₁) (ha'.fixed _ _ hq₂) (hbound.trans_le hl.grows.heap)
      (by omega)).reaches

variable {names captured : List String} {done : Nat} {x : String}

/-- the value of a captured variable is kept in mind -/
theorem exists_constant (captured : List String) (x : String) (v : Value) :
    ∃ c : Option Value, (x ∉ captured → c = none) ∧ (x ∈ captured → ∃ u, c = some u) ∧ ∀ u, c = some u → u = v := by
  by_cases hx : x ∈ captured
  · exact ⟨some v, fun hno => absurd hx hno, fun _ => ⟨v, rfl⟩, fun u hu => (Option.some.inj hu).symm⟩
  · exact ⟨none, fun _ => rfl, fun hin => absurd hin hx, nofun⟩

/-- the next value is written into its place -/
theorem Progress.reaches_stored (h : Progress junk w₀ w names captured done) (hx : names[done]? = some x)
    (hn : done + n = names.length) (hp : Placed image pc [.own (.storeloc n), .pop])
    (ha : w.AgreesBut image globals junk pending σ) (hv : w.Shown junk v a) :
    ∃ w', Progress junk w₀ w' names captured (done + 1) ∧
      w'.AgreesBut image globals junk pending (σ.write (.cell (w₀.next + done)) v) ∧
      image.Reaches ⟨pc, w.mem.push a⟩ ⟨pc + 2, w'.mem⟩ := by
  have hw := h.waits done le_rfl (List.getElem?_eq_some_iff.1 hx).1
  have hsize := h.filling.size
  obtain ⟨c', hno, hin, hconst⟩ := exists_constant captured x v
  refine ⟨_, h.put hx hno hin, ha.put hw.next hw.place hw.free hw.constant hconst hv, ?_⟩
  exact (moves_storeloc (m := w.mem) hp.1 (by simp only [World.mem]; omega) hw.place).reaches.trans
    (Image.moves_pop hp.2.1).reaches

/-- the next function is copied into the pair whose address lies in its place -/
theorem Progress.reaches_tied (h : Progress false w₀ w names captured done) (hx : names[done]? = some x)
    (hn : done + n = names.length) (hfun : value.isFunction) (he : Emits image ρ depth value c)
    (hp : Placed image pc (c ++ [.own (.refill n)])) (ht : value.capturesByValue)
    (hs : Scoped globals false w depth env ρ value) (ha : w.AgreesBut image globals false (fun _ => False) σ)
    (hlow : ∀ i, i < globals.length → 2 * i < w₀.heap.words.size) :
    ∃ w', Progress false w₀ w' names captured (done + 1) ∧
      w'.AgreesBut image globals false (fun _ => False)
        (σ.write (.cell (w₀.next + done)) (.function (literal env value))) ∧
      image.Reaches ⟨pc, w.mem⟩ ⟨pc + c.length + 1, w'.mem⟩ := by
  have hlt := (List.getElem?_eq_some_iff.1 hx).1
  have hsize := h.filling.size
  obtain ⟨hvacant, -, -⟩ := h.vacant rfl done le_rfl hlt
  obtain ⟨w₁, a, b, hl, hwords, ha₁, hmade, hreach⟩ := reaches_refill (i := w₀.words.size + done) hfun he hp ht hs ha
    (by omega) hvacant.word hvacant.bound hvacant.first hvacant.second
  have h₁ := h.leads hl
  obtain ⟨hvacant₁, hnew, -⟩ := h₁.vacant rfl done le_rfl hlt
  have hw := h₁.waits done le_rfl hlt
  obtain ⟨hword, hbound, hfirst, hsecond⟩ := hvacant₁
  generalize hpair : w₀.heap.words.size + 2 * done = p at *
  obtain ⟨c', hno, hin, hconst⟩ := exists_constant captured x (.function (literal env value))
  -- the pair is taken for the function first, then the variable is on the stack, and then the pair is filled
  have ha₂ := ha₁.named (f := World.only p (literal env value)) (Q := fun q => q = p) (World.only_new hnew) nofun
    (fun q hq => hq ▸ hbound) fun q g hq hno => absurd (if_neg hno) (by rw [← World.only, hq]; nofun)
  have ha₃ := ha₂.put (a := address p) hw.next hw.place hw.free hw.constant hconst ⟨p, rfl, by simp [World.named, World.only]⟩
  have hk : World.Knows (w₁.fill p a b) (((w₁.named (World.only p (literal env value))).put (w₀.next + done)
      (w₀.words.size + done) (address p) c').fill p a b) :=
    (World.knows_named (w := w₁.fill p a b) (World.only_new hnew)).trans
      (World.knows_put (w := (w₁.fill p a b).named (World.only p (literal env value))) hw.constant)
  have hmade' := hmade.knows hk
  have ha₄ := ha₃.fill (a := a) (b := b) (Q := fun _ => False) hfirst hsecond hbound (fun i hi => by have := hlow i hi; omega)
    (fun q hq _ => hq) (fun _ => False.elim) fun g hg => by
      simp only [World.put, World.named, World.only, if_true, Option.some_or, Option.some.injEq] at hg
      subst hg
      exact hmade'
  refine ⟨_, ?_, ha₄, ?_⟩
  · subst hpair
    exact (((h₁.put hx hno hin).named (Nat.lt_succ_self done) hnew).fill (Nat.lt_succ_self done) hfirst hsecond)
  · rw [← World.mem_put (w₁.fill p a b) (w₀.next + done) c' hword] at hreach
    exact hreach

end
end ThreeMachines.Closure
