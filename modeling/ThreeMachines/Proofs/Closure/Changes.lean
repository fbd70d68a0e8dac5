/-
The steps that a world of the closure machine makes.

- `put`, `setGlobal`: an assignment, and the first value of a variable.
- `allocated`, `opened`: new cells of a block or a call, without and with their places on the stack.
- `appended`, `named`, `fill`: vectors, functions, and pairs that are made first and become functions later.
-/
import ThreeMachines.Proofs.Closure.World

namespace ThreeMachines.Closure

open Heap (address)

namespace World

variable {image : Image Op} {globals : List String} {junk : Bool} {pending : Nat → Prop} {w w' w'' : World}
  {σ σ' : Store} {v : Value} {a : Int} {p q i k : Nat} {f : FunctionValue}

/-! ## Assignments -/

/-- a cell gets its place on the stack, and a word there; `c` is its value if it will not be assigned any more -/
def put (w : World) (k i : Nat) (a : Int) (c : Option Value) : World :=
  { w with
    words := w.words.setIfInBounds i a
    slot := fun j => if j = k then some i else w.slot j
    constant := fun j => if j = k then c else w.constant j }

theorem knows_put {c : Option Value} (hc : w.constant k = none) : Knows w (w.put k i a c) where
  constant j v hj := by
    have hjk : j ≠ k := by
      rintro rfl
      rw [hc] at hj
      cases hj
    exact (if_neg hjk).trans hj
  fixed _ _ := id
  function _ _ := id

/-- a word that is there already -/
theorem mem_put (w : World) (k : Nat) (c : Option Value) (ha : w.words[i]? = some a) : (w.put k i a c).mem = w.mem := by
  have hwords : w.words.setIfInBounds i a = w.words := by
    refine Array.ext_getElem? fun j => ?_
    rw [Array.getElem?_setIfInBounds]
    split
    · rename_i hij
      rw [← hij, if_pos (Array.getElem?_eq_some_iff.1 ha).1, ha]
    · rfl
  simp only [mem, put, hwords]

theorem AgreesBut.put {c : Option Value} (h : AgreesBut image globals junk pending w σ) (hk : k < w.next)
    (hi : i < w.words.size) (hfree : ∀ j, w.slot j = some i → j = k) (hc : w.constant k = none)
    (hcv : ∀ u, c = some u → u = v) (hv : w.Shown junk v a) :
    AgreesBut image globals junk pending (w.put k i a c) (σ.write (.cell k) v) where
  next := h.next
  apart j l n hj hl := by
    simp only [World.put] at hj hl
    split at hj <;> split at hl
    · rename_i hjk hlk
      rw [hjk, hlk]
    · rename_i hjk hlk
      exact hjk.trans (hfree l (by rw [hl, hj])).symm
    · rename_i hjk hlk
      exact (hfree j (by rw [hj, hl])).trans hlk.symm
    · exact h.apart j l n hj hl
  known j n hj := by
    simp only [World.put] at hj
    split at hj
    · rename_i hjk
      rw [hjk]
      exact hk
    · exact h.known j n hj
  holds j n hj := by
    simp only [World.put, Store.write, Variable.cell.injEq] at hj ⊢
    split at hj
    · rename_i hjk
      obtain rfl := Option.some.inj hj
      exact ⟨a, Array.getElem?_setIfInBounds_self_of_lt hi, by rw [if_pos hjk]; exact hv.knows (knows_put hc)⟩
    · rename_i hjk
      obtain ⟨b, hb, hvb⟩ := h.holds j n hj
      have hin : i ≠ n := fun hin => hjk (hfree j (hin ▸ hj))
      exact ⟨b, by rw [Array.getElem?_setIfInBounds_ne hin, hb], by rw [if_neg hjk]; exact hvb.knows (knows_put hc)⟩
  constant j u hj := by
    simp only [World.put, Store.write, Variable.cell.injEq] at hj ⊢
    split at hj
    · rename_i hjk
      rw [if_pos hjk, hjk]
      exact ⟨hk, (hcv u hj).symm⟩
    · rename_i hjk
      rw [if_neg hjk]
      exact h.constant j u hj
  shared j name hj := by
    obtain ⟨b, hb, hvb⟩ := h.shared j name hj
    exact ⟨b, hb, hvb.knows (knows_put hc)⟩
  fixed := h.fixed
  loose := h.loose
  made p f hp hno := (h.made p f hp hno).knows (knows_put hc)
  pending_lt := h.pending_lt
  size := h.size

theorem Grows.put {c : Option Value} {w₀ : World} (hg : Grows w₀ w) (hi : w₀.words.size ≤ i) (hk : w₀.next ≤ k)
    (hc : w.constant k = none) (hs : ∀ n, w.slot k = some n → n = i) : Grows w₀ (w.put k i a c) where
  knows := hg.knows.trans (knows_put hc)
  slot j n hj := by
    simp only [World.put]
    split
    · rename_i hjk
      rw [hs n (by rw [← hjk]; exact hg.slot j n hj)]
    · exact hg.slot j n hj
  slot_new j n hj := by
    simp only [World.put] at hj
    split at hj
    · exact .inr (Option.some.inj hj ▸ hi)
    · exact hg.slot_new j n hj
  kept n hn hno := (Array.getElem?_setIfInBounds_ne (by omega)).trans (hg.kept n hn hno)
  size := hg.size.trans_eq Array.size_setIfInBounds.symm
  next := hg.next
  constant_old j hj := (if_neg (by omega)).trans (hg.constant_old j hj)
  fixed_old := hg.fixed_old
  function_old := hg.function_old
  heap := hg.heap

/-- the assignment of a variable on the stack -/
theorem leads_put (hs : w.slot k = some i) (hc : w.constant k = none) (a : Int) : Leads w (w.put k i a none) := by
  have hslot : (w.put k i a none).slot = w.slot := by
    funext j
    simp only [put]
    split
    · rename_i hjk
      rw [hjk, hs]
    · rfl
  have hconstant : (w.put k i a none).constant = w.constant := by
    funext j
    simp only [put]
    split
    · rename_i hjk
      rw [hjk, hc]
    · rfl
  refine ⟨⟨knows_put hc, fun _ _ => by rw [hslot]; exact id, fun _ _ => by rw [hslot]; exact .inl, fun n _ hno => ?_,
    Array.size_setIfInBounds.ge, le_rfl, fun _ _ => by rw [hconstant], fun _ _ => rfl, fun _ _ => rfl, le_rfl⟩, rfl,
    Array.size_setIfInBounds, hslot⟩
  exact Array.getElem?_setIfInBounds_ne fun hin : i = n => hno k (hin ▸ hs)

/-- another word in the cell of a global -/
def setGlobal (w : World) (i : Nat) (a : Int) : World := { w with heap := w.heap.set (2 * i) a }

theorem AgreesBut.setGlobal {name : String} (h : AgreesBut image globals junk pending w σ) (hnodup : globals.Nodup)
    (hi : globals[i]? = some name) (hv : w.Shown junk v a) :
    AgreesBut image globals junk pending (w.setGlobal i a) (σ.write (.global name) v) := by
  have hlt := (List.getElem?_eq_some_iff.1 hi).1
  have hk : Knows w (w.setGlobal i a) := ⟨fun _ _ => id, fun _ _ => id, fun _ _ => id⟩
  refine ⟨h.next, h.apart, h.known, fun k n hn => ?_, fun k u hu => ?_, fun j other hj => ?_, fun q b hq => ?_, h.loose,
    fun p f hp hno => (h.made p f hp hno).knows hk, fun p hp => ?_, fun hjunk => ?_⟩
  · obtain ⟨b, hb, hvb⟩ := h.holds k n hn
    exact ⟨b, hb, hvb.knows hk⟩
  · exact h.constant k u hu
  · simp only [Store.write, World.setGlobal, Variable.global.injEq]
    by_cases hji : j = i
    · subst hji
      obtain rfl : name = other := Option.some.inj (hi.symm.trans hj)
      exact ⟨a, Heap.getElem?_set_self (h.global_lt hlt), by rw [if_pos rfl]; exact hv.knows hk⟩
    · obtain ⟨b, hb, hvb⟩ := h.shared j other hj
      have hne : other ≠ name := by
        rintro rfl
        obtain ⟨hj', rfl⟩ := List.getElem?_eq_some_iff.1 hj
        obtain ⟨hi', hij⟩ := List.getElem?_eq_some_iff.1 hi
        exact hji (hnodup.getElem_inj_iff.1 hij).symm
      exact ⟨b, by rw [Heap.getElem?_set_ne (by omega), hb], by rw [if_neg hne]; exact hvb.knows hk⟩
  · have hqi : 2 * i ≠ q := by
      rintro rfl
      have : w.fixed (2 * i) = some b := hq
      rw [h.loose i hlt] at this
      cases this
    exact (Heap.getElem?_set_ne hqi).trans (h.fixed q b hq)
  · simpa [World.setGlobal] using h.pending_lt p hp
  · simpa [World.setGlobal] using h.size hjunk

theorem leads_setGlobal (w : World) (i : Nat) (a : Int) : Leads w (w.setGlobal i a) :=
  ⟨⟨⟨fun _ _ => id, fun _ _ => id, fun _ _ => id⟩, fun _ _ => id, fun _ _ => .inl, fun _ _ _ => rfl, le_rfl, le_rfl,
    fun _ _ => rfl, fun _ _ => rfl, fun _ _ => rfl, (Heap.size_set ..).ge⟩, rfl, rfl, rfl⟩

/-! ## New cells -/

/-- more words on the stack and on the heap, and more cells -/
def allocated (w : World) (as ws : List Int) (count : Nat) : World :=
  { w with words := w.words ++ as.toArray, heap := w.heap.append ws, next := w.next + count }

theorem grows_allocated (w : World) (as ws : List Int) (count : Nat) : Grows w (w.allocated as ws count) where
  knows := ⟨fun _ _ => id, fun _ _ => id, fun _ _ => id⟩
  slot _ _ := id
  slot_new _ _ := .inl
  kept n hn _ := Array.getElem?_append_left hn
  size := by simp [allocated]
  next := Nat.le_add_right _ _
  constant_old _ _ := rfl
  fixed_old _ _ := rfl
  function_old _ _ := rfl
  heap := by simp [allocated]

theorem AgreesBut.allocated (h : AgreesBut image globals junk pending w σ) (as ws : List Int)
    (initials : List (Nat → Value)) (hws : junk = true → ws.length = 2 * initials.length) :
    AgreesBut image globals junk pending (w.allocated as ws initials.length) (σ.cells initials) where
  next := by rw [σ.cells_next, ← h.next]; rfl
  apart := h.apart
  known k n hk := (h.known k n hk).trans_le (Nat.le_add_right _ _)
  holds k n hk := by
    obtain ⟨a, ha, hv⟩ := h.holds k n hk
    refine ⟨a, by rw [World.allocated, Array.getElem?_append_left (h.lt_size hk), ha], ?_⟩
    rw [σ.cells_value_old]
    · exact hv.knows (grows_allocated ..).knows
    · intro i hi
      have := h.known k n hk
      rw [h.next] at this
      rw [Variable.cell.injEq] at hi
      omega
  constant k v hk := by
    obtain ⟨hlt, hv⟩ := h.constant k v hk
    refine ⟨hlt.trans_le (Nat.le_add_right _ _), ?_⟩
    rw [σ.cells_value_old]
    · exact hv
    · intro i hi
      rw [h.next] at hlt
      rw [Variable.cell.injEq] at hi
      omega
  shared j name hj := by
    obtain ⟨a, ha, hv⟩ := h.shared j name hj
    refine ⟨a, Heap.getElem?_append_of_some ha, ?_⟩
    rw [σ.cells_value_old]
    · exact hv.knows (grows_allocated ..).knows
    · rintro i ⟨⟩
  fixed q a hq := Heap.getElem?_append_of_some (h.fixed q a hq)
  loose := h.loose
  made p f hp hno := (h.made p f hp hno).knows (grows_allocated ..).knows
  pending_lt p hp := (h.pending_lt p hp).trans_le (grows_allocated w as ws initials.length).heap
  size hjunk := by
    simp only [World.allocated, Heap.size_append, h.size hjunk, hws hjunk]
    ring

/-- new variables on top of the stack; `consts` are the values of those that will not be assigned -/
def opened (w : World) (as ws : List Int) (consts : Nat → Option Value) : World :=
  { w.allocated as ws as.length with
    slot := fun k => if w.next ≤ k ∧ k < w.next + as.length then some (w.words.size + (k - w.next)) else w.slot k
    constant := fun k => if w.next ≤ k ∧ k < w.next + as.length then consts (k - w.next) else w.constant k }

section
variable {as ws : List Int} {consts : Nat → Option Value} {j : Nat}

theorem opened_slot (hj : j < as.length) : (w.opened as ws consts).slot (w.next + j) = some (w.words.size + j) := by
  rw [opened]
  simp only
  rw [if_pos (by omega), Nat.add_sub_cancel_left]

theorem opened_constant (hj : j < as.length) : (w.opened as ws consts).constant (w.next + j) = consts j := by
  rw [opened]
  simp only
  rw [if_pos (by omega), Nat.add_sub_cancel_left]

/-- a place belongs to a new variable or to an old one -/
theorem opened_slot_cases {k n : Nat} (h : (w.opened as ws consts).slot k = some n) :
    (∃ j, j < as.length ∧ k = w.next + j ∧ n = w.words.size + j) ∨ w.slot k = some n := by
  rw [opened] at h
  simp only at h
  split at h
  · rename_i hlt
    obtain ⟨j, rfl⟩ := Nat.exists_eq_add_of_le hlt.1
    rw [Nat.add_sub_cancel_left, Option.some.injEq] at h
    exact .inl ⟨j, by omega, rfl, h.symm⟩
  · exact .inr h

/-- a constant is one of the new ones or an old one -/
theorem opened_constant_cases {k : Nat} {v : Value} (h : (w.opened as ws consts).constant k = some v) :
    (∃ j, j < as.length ∧ k = w.next + j ∧ consts j = some v) ∨ w.constant k = some v := by
  rw [opened] at h
  simp only at h
  split at h
  · rename_i hlt
    obtain ⟨j, rfl⟩ := Nat.exists_eq_add_of_le hlt.1
    rw [Nat.add_sub_cancel_left] at h
    exact .inl ⟨j, by omega, rfl, h⟩
  · exact .inr h

theorem AgreesBut.grows_opened (h : AgreesBut image globals junk pending w σ) (as ws : List Int)
    (consts : Nat → Option Value) : Grows w (w.opened as ws consts) where
  knows := by
    refine ⟨fun k v hk => ?_, fun _ _ => id, fun _ _ => id⟩
    have := (h.constant k v hk).1
    rw [opened]
    simp only
    rw [if_neg (by omega), hk]
  slot k n hk := by
    have := h.known k n hk
    rw [opened]
    simp only
    rw [if_neg (by omega), hk]
  slot_new k n hk := by
    obtain ⟨j, -, -, rfl⟩ | hk := opened_slot_cases hk
    · exact .inr (Nat.le_add_right _ _)
    · exact .inl hk
  kept n hn _ := Array.getElem?_append_left hn
  size := (grows_allocated w as ws as.length).size
  next := Nat.le_add_right _ _
  constant_old k hk := if_neg (by omega)
  fixed_old _ _ := rfl
  function_old _ _ := rfl
  heap := (grows_allocated w as ws as.length).heap

/-- **New variables.** Their words show the values that they start with. -/
theorem AgreesBut.opened {initials : List (Nat → Value)} (h : AgreesBut image globals junk pending w σ)
    (hlength : initials.length = as.length) (hws : junk = true → ws.length = 2 * as.length)
    (hshown : ∀ j (initial : Nat → Value), initials[j]? = some initial →
      ∃ a, as[j]? = some a ∧ w.Shown junk (initial (w.next + j)) a)
    (hconsts : ∀ j initial v, initials[j]? = some initial → consts j = some v → initial (w.next + j) = v) :
    AgreesBut image globals junk pending (w.opened as ws consts) (σ.cells initials) := by
  have ha := h.allocated as ws initials (by rwa [hlength])
  have hg := h.grows_opened as ws consts
  have hk : Knows (w.allocated as ws initials.length) (w.opened as ws consts) :=
    ⟨hg.knows.constant, fun _ _ => id, fun _ _ => id⟩
  have hnew : ∀ j, j < as.length → ∃ initial, initials[j]? = some initial ∧
      (σ.cells initials).value (.cell (w.next + j)) = initial (w.next + j) := by
    intro j hj
    refine ⟨initials[j], by simp [hlength, hj], ?_⟩
    rw [h.next]
    exact σ.cells_value_new (by simp [hlength, hj])
  refine {
    next := ?next
    apart := ?apart
    known := ?known
    holds := ?holds
    constant := ?constant
    shared := ?shared
    fixed := ha.fixed
    loose := ha.loose
    made := fun p f hp hno => (ha.made p f hp hno).knows hk
    pending_lt := ha.pending_lt
    size := ?size }
  case next =>
    rw [← ha.next, hlength]
    rfl
  case apart =>
    intro k l n hk hl
    obtain ⟨i, -, rfl, hi⟩ | hk := opened_slot_cases hk <;> obtain ⟨j, -, rfl, hj⟩ | hl := opened_slot_cases hl
    · omega
    · have := h.lt_size hl
      omega
    · have := h.lt_size hk
      omega
    · exact h.apart k l n hk hl
  case known =>
    intro k n hk
    obtain ⟨j, hj, rfl, -⟩ | hk := opened_slot_cases hk
    · exact Nat.add_lt_add_left hj _
    · exact (h.known k n hk).trans_le hg.next
  case holds =>
    intro k n hn
    obtain ⟨j, hj, rfl, rfl⟩ | hn := opened_slot_cases hn
    · obtain ⟨initial, hi, hvalue⟩ := hnew j hj
      obtain ⟨a, ha', hv⟩ := hshown j initial hi
      refine ⟨a, ?_, ?_⟩
      · rw [World.opened, World.allocated]
        simp only
        rw [Array.getElem?_append_right (Nat.le_add_right _ _), Nat.add_sub_cancel_left, List.getElem?_toArray, ha']
      · rw [hvalue]
        exact hv.knows hg.knows
    · obtain ⟨a, ha', hv⟩ := ha.holds k n hn
      exact ⟨a, ha', hv.knows hk⟩
  case constant =>
    intro k v hv
    obtain ⟨j, hj, rfl, hconst⟩ | hv := opened_constant_cases hv
    · obtain ⟨initial, hi, hvalue⟩ := hnew j hj
      exact ⟨Nat.add_lt_add_left hj _, hvalue.trans (hconsts j initial v hi hconst)⟩
    · obtain ⟨hlt, hvalue⟩ := ha.constant k v hv
      exact ⟨((h.constant k v hv).1).trans_le hg.next, hvalue⟩
  case shared =>
    intro j name hj
    obtain ⟨a, ha', hv⟩ := ha.shared j name hj
    exact ⟨a, ha', hv.knows hk⟩
  case size =>
    intro hjunk
    have hsize := ha.size hjunk
    rw [hlength] at hsize
    exact hsize

end

/-! ## Functions -/

/-- words at the end of the heap that never change -/
def appended (w : World) (ws : List Int) : World :=
  { w with
    heap := w.heap.append ws
    fixed := fun q => if w.heap.words.size ≤ q then ws[q - w.heap.words.size]? else w.fixed q }

theorem appended_fixed (w : World) (ws : List Int) (j : Nat) :
    (w.appended ws).fixed (w.heap.words.size + j) = ws[j]? := by
  rw [appended]
  simp only
  rw [if_pos (Nat.le_add_right _ _), Nat.add_sub_cancel_left]

theorem AgreesBut.leads_appended (h : AgreesBut image globals junk pending w σ) (ws : List Int) :
    Leads w (w.appended ws) := by
  have hold : ∀ q, q < w.heap.words.size → (w.appended ws).fixed q = w.fixed q := fun q hq => if_neg (by omega)
  refine ⟨⟨⟨fun _ _ => id, fun q b hq => ?_, fun _ _ => id⟩, fun _ _ => id, fun _ _ => .inl, fun _ _ _ => rfl, le_rfl,
    le_rfl, fun _ _ => rfl, hold, fun _ _ => rfl, by simp [appended]⟩, rfl, rfl, rfl⟩
  rw [hold q (h.fixed_lt hq), hq]

theorem AgreesBut.appended (h : AgreesBut image globals false pending w σ) (ws : List Int) :
    AgreesBut image globals false pending (w.appended ws) σ := by
  have hl := h.leads_appended ws
  refine ⟨h.next, h.apart, h.known, fun k n hk => ?_, h.constant, fun j name hj => ?_, fun q b hq => ?_, fun j hj => ?_,
    fun p f hp hno => (h.made p f hp hno).knows hl.grows.knows, fun p hp => (h.pending_lt p hp).trans_le hl.grows.heap,
    nofun⟩
  · obtain ⟨b, hb, hv⟩ := h.holds k n hk
    exact ⟨b, hb, hv.knows hl.grows.knows⟩
  · obtain ⟨b, hb, hv⟩ := h.shared j name hj
    exact ⟨b, Heap.getElem?_append_of_some hb, hv.knows hl.grows.knows⟩
  · by_cases hlt : w.heap.words.size ≤ q
    · obtain ⟨j, rfl⟩ := Nat.exists_eq_add_of_le hlt
      rw [appended_fixed] at hq
      exact (Heap.getElem?_append_new _ _ j).trans hq
    · rw [hl.grows.fixed_old q (by omega)] at hq
      exact Heap.getElem?_append_of_some (h.fixed q b hq)
  · rw [hl.grows.fixed_old _ (h.global_lt hj), h.loose j hj]

/-- pairs that words may take for functions from now on -/
def named (w : World) (f : Nat → Option FunctionValue) : World :=
  { w with function := fun p => (f p).or (w.function p) }

theorem knows_named {f : Nat → Option FunctionValue} (hnew : ∀ p, w.function p ≠ none → f p = none) :
    Knows w (w.named f) := by
  refine ⟨fun _ _ => id, fun _ _ => id, fun p g hp => ?_⟩
  rw [named]
  simp only
  rw [hnew p (by simp [hp]), hp, Option.none_or]

theorem AgreesBut.named {f : Nat → Option FunctionValue} {Q : Nat → Prop}
    (h : AgreesBut image globals junk pending w σ) (hnew : ∀ p, w.function p ≠ none → f p = none)
    (hpending : ∀ p, pending p → Q p) (hlt : ∀ p, Q p → p + 1 < w.heap.words.size)
    (hmade : ∀ p g, f p = some g → ¬ Q p → (w.named f).Made image globals junk p g) :
    AgreesBut image globals junk Q (w.named f) σ := by
  have hk := knows_named hnew
  refine ⟨h.next, h.apart, h.known, fun k n hn => ?_, h.constant, fun j name hj => ?_, h.fixed, h.loose,
    fun p g hp hno => ?_, hlt, h.size⟩
  · obtain ⟨b, hb, hv⟩ := h.holds k n hn
    exact ⟨b, hb, hv.knows hk⟩
  · obtain ⟨b, hb, hv⟩ := h.shared j name hj
    exact ⟨b, hb, hv.knows hk⟩
  · cases hf : f p with
    | some g' =>
      simp only [World.named, hf, Option.some_or, Option.some.injEq] at hp
      subst hp
      exact hmade p g' hf hno
    | none =>
      simp only [World.named, hf, Option.none_or] at hp
      exact (h.made p g hp fun hpend => hno (hpending p hpend)).knows hk

theorem Grows.named {w₀ : World} {f : Nat → Option FunctionValue} (hg : Grows w₀ w)
    (hnew : ∀ p, w.function p ≠ none → f p = none) (hold : ∀ p, p < w₀.heap.words.size → f p = none) :
    Grows w₀ (w.named f) where
  knows := hg.knows.trans (knows_named hnew)
  slot := hg.slot
  slot_new := hg.slot_new
  kept := hg.kept
  size := hg.size
  next := hg.next
  constant_old := hg.constant_old
  fixed_old := hg.fixed_old
  function_old p hp := by
    rw [← hg.function_old p hp, World.named]
    simp only
    rw [hold p hp, Option.none_or]
  heap := hg.heap

/-- a pair of words that do not change any more -/
def fill (w : World) (p : Nat) (a b : Int) : World :=
  { w with
    heap := (w.heap.set p a).set (p + 1) b
    fixed := fun q => if q = p then some a else if q = p + 1 then some b else w.fixed q }

section
variable {b : Int}

theorem fill_fixed_first (w : World) (p : Nat) (a b : Int) : (w.fill p a b).fixed p = some a := if_pos rfl

theorem fill_fixed_second (w : World) (p : Nat) (a b : Int) : (w.fill p a b).fixed (p + 1) = some b := by
  simp [fill]

theorem fill_fixed_ne (hp : q ≠ p) (hp' : q ≠ p + 1) : (w.fill p a b).fixed q = w.fixed q := by
  rw [fill]
  simp only
  rw [if_neg hp, if_neg hp']

theorem knows_fill (hp : w.fixed p = none) (hp' : w.fixed (p + 1) = none) : Knows w (w.fill p a b) := by
  refine ⟨fun _ _ => id, fun q c hq => ?_, fun _ _ => id⟩
  rw [fill_fixed_ne, hq]
  · rintro rfl
    rw [hp] at hq
    cases hq
  · rintro rfl
    rw [hp'] at hq
    cases hq

theorem getElem?_fill_ne (hp : q ≠ p) (hp' : q ≠ p + 1) : (w.fill p a b).heap.words[q]? = w.heap.words[q]? := by
  rw [fill, Heap.getElem?_set_ne (Ne.symm hp'), Heap.getElem?_set_ne (Ne.symm hp)]

theorem AgreesBut.fill {Q : Nat → Prop} (h : AgreesBut image globals junk pending w σ)
    (hp : w.fixed p = none) (hp' : w.fixed (p + 1) = none) (hsize : p + 1 < w.heap.words.size)
    (hglobal : ∀ i, i < globals.length → 2 * i ≠ p ∧ 2 * i ≠ p + 1)
    (hpending : ∀ q, pending q → ¬ Q q → q = p) (hless : ∀ q, Q q → pending q)
    (hmade : ∀ f, w.function p = some f → (w.fill p a b).Made image globals junk p f) :
    AgreesBut image globals junk Q (w.fill p a b) σ := by
  have hk : Knows w (w.fill p a b) := knows_fill hp hp'
  have hheap : (w.fill p a b).heap.words.size = w.heap.words.size := by simp [World.fill]
  refine ⟨h.next, h.apart, h.known, fun k n hn => ?_, h.constant, fun j name hj => ?_, fun q c hq => ?_, fun j hj => ?_,
    fun q f hq hno => ?_, fun q hq => by rw [hheap]; exact h.pending_lt q (hless q hq), fun hjunk => ?_⟩
  · obtain ⟨c, hc, hv⟩ := h.holds k n hn
    exact ⟨c, hc, hv.knows hk⟩
  · obtain ⟨c, hc, hv⟩ := h.shared j name hj
    obtain ⟨hne, hne'⟩ := hglobal j (List.getElem?_eq_some_iff.1 hj).1
    exact ⟨c, by rw [getElem?_fill_ne hne hne', hc], hv.knows hk⟩
  · by_cases hqp : q = p
    · subst hqp
      rw [fill_fixed_first] at hq
      rw [World.fill, Heap.getElem?_set_ne (by omega), Heap.getElem?_set_self (by omega), hq]
    · by_cases hqp' : q = p + 1
      · subst hqp'
        rw [fill_fixed_second] at hq
        rw [World.fill, Heap.getElem?_set_self (by simpa using hsize), hq]
      · rw [fill_fixed_ne hqp hqp'] at hq
        rw [getElem?_fill_ne hqp hqp', h.fixed q c hq]
  · obtain ⟨hne, hne'⟩ := hglobal j hj
    rw [fill_fixed_ne hne hne', h.loose j hj]
  · by_cases hqp : q = p
    · subst hqp
      exact hmade f hq
    · exact (h.made q f hq fun hpend => hqp (hpending q hpend hno)).knows hk
  · rw [hheap, h.size hjunk]
    rfl

theorem Grows.fill {w₀ : World} (hg : Grows w₀ w) (hlow : w₀.heap.words.size ≤ p) (hp : w.fixed p = none)
    (hp' : w.fixed (p + 1) = none) : Grows w₀ (w.fill p a b) where
  knows := hg.knows.trans (knows_fill hp hp')
  slot := hg.slot
  slot_new := hg.slot_new
  kept := hg.kept
  size := hg.size
  next := hg.next
  constant_old := hg.constant_old
  fixed_old q hq := by rw [fill_fixed_ne (by omega) (by omega), hg.fixed_old q hq]
  function_old := hg.function_old
  heap := hg.heap.trans_eq (by simp [World.fill])

end
end World
end ThreeMachines.Closure
