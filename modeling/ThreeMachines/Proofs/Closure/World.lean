/-
The closure machine as a setting.

A world is a memory with what is known about it: the stack words and the cells of globals in which the variables lie, the
variables that are not assigned any more (`constant`), so that a function may keep a copy, the words of the heap that
never change, and the pairs on the heap that are functions.

- `AgreesBut pending w σ`: the memory shows the values of the variables; the pairs in `pending` are not functions yet,
  although words point at them that show functions.
- `Grows w w'`: what code may do to a world, more words and more variables on top included. `Leads` is the case without
  more on top, and `Grows.close` goes from the one to the other.

Without functions the machine is followed also where a program reads variables that have no value yet (`junk`): a block
variable then starts as the address of its pair, and the heap has nothing but such pairs on top of the globals.
-/
import ThreeMachines.Proofs.Skeletons
import ThreeMachines.Proofs.Closure.Emission
import ThreeMachines.Proofs.Closure.Operations

namespace ThreeMachines.Closure

open Heap (address)

structure World where
  words : Array Int
  regs : Registers
  heap : Heap
  /-- the number of the next cell -/
  next : Nat
  /-- where the cells of blocks and calls lie on the stack -/
  slot : Nat → Option Nat
  /-- cells that are not assigned any more, and their values -/
  constant : Nat → Option Value
  /-- words of the heap that never change -/
  fixed : Nat → Option Int
  /-- pairs that are functions -/
  function : Nat → Option FunctionValue

namespace World

def mem (w : World) : Memory Registers := ⟨w.words, w.heap, w.regs⟩

/-! ## Values -/

section
variable (image : Image Op) (globals : List String) (junk : Bool) (w : World)

/-- the word of a value -/
def Shown : Value → Int → Prop
  | .int n, a => a = n ∧ (junk = true ∨ isWord n = true)
  | .function f, a => ∃ p, a = address p ∧ w.function p = some f

/-- what a function captures of a variable: the cell of a global, or a copy of a constant -/
inductive Capture : Bool → Variable → Int → Prop
  | shared {i : Nat} {name : String} : globals[i]? = some name → Capture true (.global name) (address (2 * i))
  | copied {k : Nat} {v : Value} {a : Int} : w.constant k = some v → w.Shown junk v a → Capture false (.cell k) a

/-- element `j` of the vector at `g` gives the variable -/
def Element (g j : Nat) (flag : Bool) (x : Variable) : Prop :=
  ∃ a, w.fixed (g + 1 + j) = some a ∧ w.Capture globals junk flag x a

end

end World

/-- a function whose parameters and locals are copied only if they are not assigned -/
structure Copyable (f : FunctionValue) : Prop where
  body : f.body.capturesByValue
  names : ∀ x ∈ f.params ++ f.locals, x ∈ f.body.assigns → x ∉ f.body.captured

namespace World

/-- the pair at `p` points to the function's body and to the vector of what it captures -/
def Made (image : Image Op) (globals : List String) (junk : Bool) (w : World) (p : Nat) (f : FunctionValue) : Prop :=
  ∃ (entry g : Nat) (shared : List (String × Bool)), w.fixed p = some (Image.base + entry) ∧
    w.fixed (p + 1) = some (address g) ∧ EmitsBody image f.params f.locals shared f.body entry ∧ Copyable f ∧
    ∀ j x flag, shared[j]? = some (x, flag) → w.Element globals junk g j flag (f.env.variable x)

/-- the memory shows the values of the variables -/
structure AgreesBut (image : Image Op) (globals : List String) (junk : Bool) (pending : Nat → Prop) (w : World)
    (σ : Store) : Prop where
  next : w.next = σ.next
  apart : ∀ j k i, w.slot j = some i → w.slot k = some i → j = k
  known : ∀ k i, w.slot k = some i → k < w.next
  holds : ∀ k i, w.slot k = some i → ∃ a, w.words[i]? = some a ∧ w.Shown junk (σ.value (.cell k)) a
  constant : ∀ k v, w.constant k = some v → k < w.next ∧ σ.value (.cell k) = v
  shared : ∀ i name, globals[i]? = some name →
    ∃ a, w.heap.words[2 * i]? = some a ∧ w.Shown junk (σ.value (.global name)) a
  fixed : ∀ q a, w.fixed q = some a → w.heap.words[q]? = some a
  loose : ∀ i, i < globals.length → w.fixed (2 * i) = none
  made : ∀ p f, w.function p = some f → ¬ pending p → w.Made image globals junk p f
  pending_lt : ∀ p, pending p → p + 1 < w.heap.words.size
  size : junk = true → w.heap.words.size = 3 * globals.length + 1 + 2 * w.next

/-- all that is known for ever is still known -/
structure Knows (w w' : World) : Prop where
  constant : ∀ k v, w.constant k = some v → w'.constant k = some v
  fixed : ∀ q a, w.fixed q = some a → w'.fixed q = some a
  function : ∀ p f, w.function p = some f → w'.function p = some f

/-- a world that code over another one may lead to -/
structure Grows (w w' : World) : Prop where
  knows : Knows w w'
  slot : ∀ k i, w.slot k = some i → w'.slot k = some i
  slot_new : ∀ k i, w'.slot k = some i → w.slot k = some i ∨ w.words.size ≤ i
  kept : ∀ i, i < w.words.size → (∀ k, w.slot k ≠ some i) → w'.words[i]? = w.words[i]?
  size : w.words.size ≤ w'.words.size
  next : w.next ≤ w'.next
  constant_old : ∀ k, k < w.next → w'.constant k = w.constant k
  fixed_old : ∀ q, q < w.heap.words.size → w'.fixed q = w.fixed q
  function_old : ∀ p, p < w.heap.words.size → w'.function p = w.function p
  heap : w.heap.words.size ≤ w'.heap.words.size

/-- what code may do to a world -/
structure Leads (w w' : World) : Prop where
  grows : Grows w w'
  regs : w'.regs = w.regs
  size : w'.words.size = w.words.size
  slot : w'.slot = w.slot

section
variable {image : Image Op} {globals : List String} {junk : Bool} {pending : Nat → Prop} {w w' w'' : World}
  {σ σ' : Store} {v : Value} {a : Int} {p q i k : Nat} {f : FunctionValue}

/-! ### What code may do -/

theorem Knows.trans (h : Knows w w') (h' : Knows w' w'') : Knows w w'' where
  constant k v hk := h'.constant k v (h.constant k v hk)
  fixed q a hq := h'.fixed q a (h.fixed q a hq)
  function p f hp := h'.function p f (h.function p f hp)

theorem Grows.refl (w : World) : Grows w w :=
  ⟨⟨fun _ _ => id, fun _ _ => id, fun _ _ => id⟩, fun _ _ => id, fun _ _ => .inl, fun _ _ _ => rfl, le_rfl, le_rfl,
    fun _ _ => rfl, fun _ _ => rfl, fun _ _ => rfl, le_rfl⟩

theorem Grows.trans (h : Grows w w') (h' : Grows w' w'') : Grows w w'' where
  knows := h.knows.trans h'.knows
  slot k i hk := h'.slot k i (h.slot k i hk)
  slot_new k i hk := by
    rcases h'.slot_new k i hk with hk | hi
    · exact h.slot_new k i hk
    · exact .inr (h.size.trans hi)
  kept i hi hno := by
    rw [h'.kept i (hi.trans_le h.size), h.kept i hi hno]
    intro k hk
    rcases h.slot_new k i hk with hk | hge
    · exact hno k hk
    · omega
  size := h.size.trans h'.size
  next := h.next.trans h'.next
  constant_old k hk := (h'.constant_old k (hk.trans_le h.next)).trans (h.constant_old k hk)
  fixed_old q hq := (h'.fixed_old q (hq.trans_le h.heap)).trans (h.fixed_old q hq)
  function_old p hp := (h'.function_old p (hp.trans_le h.heap)).trans (h.function_old p hp)
  heap := h.heap.trans h'.heap

theorem Leads.refl (w : World) : Leads w w := ⟨.refl w, rfl, rfl, rfl⟩

theorem Leads.trans (h : Leads w w') (h' : Leads w' w'') : Leads w w'' :=
  ⟨h.grows.trans h'.grows, h'.regs.trans h.regs, h'.size.trans h.size, h'.slot.trans h.slot⟩

theorem Shown.knows (h : w.Shown junk v a) (hk : Knows w w') : w'.Shown junk v a := by
  cases v with
  | int n => exact h
  | function f =>
    obtain ⟨p, ha, hp⟩ := h
    exact ⟨p, ha, hk.function p f hp⟩

theorem Capture.knows {flag : Bool} {x : Variable} (h : w.Capture globals junk flag x a) (hk : Knows w w') :
    w'.Capture globals junk flag x a := by
  cases h with
  | shared hi => exact .shared hi
  | copied hc hv => exact .copied (hk.constant _ _ hc) (hv.knows hk)

theorem Element.knows {g j : Nat} {flag : Bool} {x : Variable} (h : w.Element globals junk g j flag x) (hk : Knows w w') :
    w'.Element globals junk g j flag x := by
  obtain ⟨a, hf, hc⟩ := h
  exact ⟨a, hk.fixed _ _ hf, hc.knows hk⟩

theorem Made.knows (h : w.Made image globals junk p f) (hk : Knows w w') : w'.Made image globals junk p f := by
  obtain ⟨entry, g, shared, hp, hp', hem, hf, hx⟩ := h
  exact ⟨entry, g, shared, hk.fixed _ _ hp, hk.fixed _ _ hp', hem, hf, fun j x flag hj => (hx j x flag hj).knows hk⟩

/-- the words of a function also make it a function elsewhere -/
theorem Made.copy (h : w.Made image globals junk q f) (hp : w.fixed p = w.fixed q)
    (hp' : w.fixed (p + 1) = w.fixed (q + 1)) : w.Made image globals junk p f := by
  rw [Made, hp, hp']
  exact h

theorem AgreesBut.lt_size (h : AgreesBut image globals junk pending w σ) (hk : w.slot k = some i) :
    i < w.words.size := by
  obtain ⟨_, ha, -⟩ := h.holds k i hk
  exact (Array.getElem?_eq_some_iff.1 ha).1

theorem AgreesBut.fixed_lt (h : AgreesBut image globals junk pending w σ) (hq : w.fixed q = some a) :
    q < w.heap.words.size := (Array.getElem?_eq_some_iff.1 (h.fixed q a hq)).1

theorem AgreesBut.global_lt (h : AgreesBut image globals junk pending w σ) (hi : i < globals.length) :
    2 * i < w.heap.words.size := by
  obtain ⟨a, ha, -⟩ := h.shared i globals[i] (by simp [hi])
  exact (Array.getElem?_eq_some_iff.1 ha).1

theorem AgreesBut.function_lt (h : AgreesBut image globals junk pending w σ) (hp : w.function p = some f) :
    p + 1 < w.heap.words.size := by
  by_cases hpend : pending p
  · exact h.pending_lt p hpend
  · obtain ⟨_, _, _, -, hp', -⟩ := h.made p f hp hpend
    exact h.fixed_lt hp'

/-- nothing is known of a heap beyond its end -/
theorem AgreesBut.fixed_new (h : AgreesBut image globals junk pending w σ) (hq : w.heap.words.size ≤ q) :
    w.fixed q = none := by
  by_contra hne
  obtain ⟨a, ha⟩ := Option.ne_none_iff_exists'.1 hne
  exact absurd (h.fixed_lt ha) (Nat.not_lt.2 hq)

theorem AgreesBut.function_new (h : AgreesBut image globals junk pending w σ) (hp : w.heap.words.size ≤ p) :
    w.function p = none := by
  by_contra hne
  obtain ⟨f, hf⟩ := Option.ne_none_iff_exists'.1 hne
  have := h.function_lt hf
  omega

theorem AgreesBut.constant_new (h : AgreesBut image globals junk pending w σ) (hk : w.next ≤ k) :
    w.constant k = none := by
  by_contra hne
  obtain ⟨v, hv⟩ := Option.ne_none_iff_exists'.1 hne
  exact absurd (h.constant k v hv).1 (Nat.not_lt.2 hk)

theorem AgreesBut.slot_new (h : AgreesBut image globals junk pending w σ) (hk : w.next ≤ k) : w.slot k = none := by
  by_contra hne
  obtain ⟨i, hi⟩ := Option.ne_none_iff_exists'.1 hne
  exact absurd (h.known k i hi) (Nat.not_lt.2 hk)

/-! ### Words on top -/

def push (w : World) (a : Int) : World := { w with words := w.words.push a }

/-- several words on top, the last one uppermost -/
def pushes (w : World) (as : List Int) : World := { w with words := w.words ++ as.toArray }

theorem grows_pushes (w : World) (as : List Int) : Grows w (w.pushes as) where
  knows := ⟨fun _ _ => id, fun _ _ => id, fun _ _ => id⟩
  slot _ _ := id
  slot_new _ _ := .inl
  kept i hi _ := Array.getElem?_append_left hi
  size := by simp [pushes]
  next := le_rfl
  constant_old _ _ := rfl
  fixed_old _ _ := rfl
  function_old _ _ := rfl
  heap := le_rfl

theorem push_eq_pushes (w : World) (a : Int) : w.push a = w.pushes [a] := by simp [push, pushes]

theorem AgreesBut.pushes (h : AgreesBut image globals junk pending w σ) (as : List Int) :
    AgreesBut image globals junk pending (w.pushes as) σ where
  next := h.next
  apart := h.apart
  known := h.known
  holds k i hk := by
    obtain ⟨a, ha, hv⟩ := h.holds k i hk
    exact ⟨a, by rw [World.pushes, Array.getElem?_append_left (h.lt_size hk), ha], hv⟩
  constant := h.constant
  shared := h.shared
  fixed := h.fixed
  loose := h.loose
  made p f hp hno := (h.made p f hp hno).knows (grows_pushes w as).knows
  pending_lt := h.pending_lt
  size := h.size

theorem grows_push (w : World) (a : Int) : Grows w (w.push a) := push_eq_pushes w a ▸ w.grows_pushes [a]

theorem AgreesBut.push (h : AgreesBut image globals junk pending w σ) (a : Int) :
    AgreesBut image globals junk pending (w.push a) σ := push_eq_pushes w a ▸ h.pushes [a]

/-- the word that was on top is still there -/
theorem Leads.of_push (h : AgreesBut image globals junk pending w σ) (hl : Leads (w.push a) w')
    (h' : AgreesBut image globals junk pending w' σ') :
    ∃ w₁, w' = w₁.push a ∧ Leads w w₁ ∧ AgreesBut image globals junk pending w₁ σ' := by
  have hsize : w'.words.size = w.words.size + 1 := hl.size.trans (by simp [World.push])
  have hold : ∀ i, i < w.words.size → w'.words.pop[i]? = w'.words[i]? := fun i hi => by
    rw [Array.getElem?_pop, if_pos (by omega)]
  have hslot : w'.slot = w.slot := hl.slot
  have htop := hl.grows.kept w.words.size (by simp [World.push]) fun k hk => Nat.lt_irrefl _ (h.lt_size hk)
  rw [World.push, Array.getElem?_push_size] at htop
  have hwords : w'.words.pop.push a = w'.words := by
    refine Array.ext_getElem? fun i => ?_
    rw [Array.getElem?_push, Array.size_pop, hsize, Nat.add_sub_cancel]
    by_cases hi : i = w.words.size
    · rw [if_pos hi, hi, htop]
    · rw [if_neg hi]
      by_cases hlt : i < w.words.size
      · exact hold i hlt
      · rw [Array.getElem?_eq_none (by rw [Array.size_pop]; omega), Array.getElem?_eq_none (by omega)]
  refine ⟨{ w' with words := w'.words.pop }, ?_, ⟨⟨⟨hl.grows.knows.constant, hl.grows.knows.fixed,
    hl.grows.knows.function⟩, fun k i hk => hl.grows.slot k i hk, fun k i hk => .inl (by rwa [← hslot]),
    fun i hi hno => ?_, by simp [hsize], hl.grows.next, hl.grows.constant_old, hl.grows.fixed_old, hl.grows.function_old,
    hl.grows.heap⟩, hl.regs, by simp [hsize], hslot⟩, ?_⟩
  · rw [World.push, hwords]
  · rw [hold i hi, hl.grows.kept i (by simp [World.push]; omega) hno, World.push, Array.getElem?_push,
      if_neg (Nat.ne_of_lt hi)]
  · refine ⟨h'.next, h'.apart, h'.known, fun k i hk => ?_, h'.constant, h'.shared, h'.fixed, h'.loose,
      fun p f hp hno => (h'.made p f hp hno).knows ⟨fun _ _ => id, fun _ _ => id, fun _ _ => id⟩, h'.pending_lt, h'.size⟩
    obtain ⟨b, hb, hv⟩ := h'.holds k i hk
    refine ⟨b, ?_, hv⟩
    rw [hold i (h.lt_size (by rwa [← hslot])), hb]

/-- what is left of a world when the words on top have been dropped -/
def closed (w w' : World) : World := { w' with words := w'.words.take w.words.size, slot := w.slot, regs := w.regs }

/-- **Dropped variables.** What code does over a world leads on when the words on top are dropped. -/
theorem Grows.close (hg : Grows w w') (h : AgreesBut image globals junk pending w σ)
    (h' : AgreesBut image globals junk pending w' σ') :
    Leads w (closed w w') ∧ AgreesBut image globals junk pending (closed w w') σ' := by
  have htake : ∀ i, i < w.words.size → (closed w w').words[i]? = w'.words[i]? := fun i hi => by
    have := hg.size
    simp only [closed, Array.take_eq_extract]
    rw [Array.getElem?_extract, if_pos (by omega), Nat.zero_add]
  refine ⟨⟨⟨⟨hg.knows.constant, hg.knows.fixed, hg.knows.function⟩, fun _ _ => id, fun _ _ => .inl, fun i hi hno => ?_, ?_,
    hg.next, hg.constant_old, hg.fixed_old, hg.function_old, hg.heap⟩, rfl, ?_, rfl⟩, ?_⟩
  · rw [htake i hi, hg.kept i hi hno]
  · simpa [closed] using hg.size
  · simpa [closed] using hg.size
  · refine ⟨h'.next, h.apart, fun k i hk => ?_, fun k i hk => ?_, h'.constant, h'.shared, h'.fixed, h'.loose,
      fun p f hp hno => (h'.made p f hp hno).knows ⟨fun _ _ => id, fun _ _ => id, fun _ _ => id⟩, h'.pending_lt, h'.size⟩
    · exact (h.known k i hk).trans_le hg.next
    · obtain ⟨a, ha, hv⟩ := h'.holds k i (hg.slot k i hk)
      exact ⟨a, by rw [htake i (h.lt_size hk), ha], hv⟩

/-- the words that are dropped -/
theorem mem_closed (w w' : World) :
    withRegs w'.mem w.regs = (closed w w').mem.pushes (w'.words.toList.drop w.words.size) := by
  rw [Memory.pushes_eq]
  simp only [withRegs, mem, closed, Memory.mk.injEq, and_true]
  refine Array.toList_inj.1 ?_
  rw [Array.toList_append, Array.take_eq_extract, Array.toList_extract, List.extract_eq_take_drop, List.drop_zero, Nat.sub_zero,
    List.take_append_drop]

end
end World

/-- the closure machine with its code in the image -/
abbrev setting (image : Image Op) (globals : List String) (junk : Bool) : Setting Registers where
  World := World
  mem := World.mem
  push := World.push
  Agrees w σ := w.AgreesBut image globals junk (fun _ => False) σ
  Leads := World.Leads
  mem_push _ _ := rfl
  agrees_push a h := h.push a
  leads_refl := World.Leads.refl
  leads_trans h h' := h.trans h'
  leads_push h hl h' := hl.of_push h h'

end ThreeMachines.Closure
