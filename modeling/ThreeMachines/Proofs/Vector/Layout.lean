/-
The heap of the vector machine and the variables of the program.

A layout says where the cells of the variables lie, and which words of the heap never change: the numbers that basic
values point at, functions, and vectors. Cells of variables change, but they lie apart from each other and from the words
that do not change.

- `Layout.Agrees`: every cell of a variable holds what the store says.
- `Layout.Grows low`: what code may do to a layout. New cells and new fixed words lie from `low` on, and below `low` only
  the cells of variables change; so a cell that lies on the stack and not yet below `low` is safe from the code.
- `Layout.Agrees.block`, `.append`, `.track`, `.assign`: the steps that a heap makes.
-/
import ThreeMachines.Proofs.Blocks
import ThreeMachines.Proofs.Skeletons
import ThreeMachines.Proofs.Vector.Emission

namespace ThreeMachines.Vector

open Heap (address)

/-- a heap, the cells of the variables in it, and the words of it that never change -/
structure Layout where
  heap : Heap
  place : Variable → Option Nat
  fixed : Nat → Option Int

namespace Layout

/-- element `i` of a vector -/
def Element (L : Layout) (vector i a : Int) : Prop :=
  ∃ g j : Nat, vector = address g ∧ i = j ∧ L.fixed (g + 1 + j) = some a

section
variable (image : Image Op)

/-- a pointer to the entry of a function's body and to the vector of its captured cells -/
def Function (L : Layout) (f : FunctionValue) (payload : Int) : Prop :=
  ∃ r g entry captures, payload = address r ∧ L.fixed r = some (Image.base + (entry : Nat)) ∧
    L.fixed (r + 1) = some (address g) ∧ EmitsFunction image f.params f.locals captures f.body entry ∧
    ∀ i x, captures[i]? = some x → ∃ q, L.place (f.env.variable x) = some q ∧ L.fixed (g + 1 + i) = some (address q)

/-- payload and tag of a value -/
def Holds (L : Layout) (payload tag : Int) : Value → Prop
  | .int n => tag = Tag.basic.word ∧ isWord n = true ∧ ∃ r, payload = address r ∧ L.fixed r = some n
  | .function f => tag = Tag.function.word ∧ L.Function image f payload

/-- the cell at `q` holds the value -/
def Cell (L : Layout) (q : Nat) (v : Value) : Prop :=
  ∃ payload tag, L.heap.words[q]? = some payload ∧ L.heap.words[q + 1]? = some tag ∧ L.Holds image payload tag v

/-- neither a word of a variable's cell nor a fixed word -/
structure Free (L : Layout) (q : Nat) : Prop where
  apart : ∀ x p, L.place x = some p → p ≠ q ∧ p + 1 ≠ q ∧ p ≠ q + 1
  loose : L.fixed q = none ∧ L.fixed (q + 1) = none

/-- a cell of no variable, not below `low`, that holds the value -/
structure Fresh (low : Nat) (L : Layout) (q : Nat) (v : Value) : Prop where
  low_le : low ≤ q
  free : L.Free q
  cell : L.Cell image q v

/-- the cells of the variables hold the values of the store -/
structure Agrees (L : Layout) (σ : Store) : Prop where
  fixed : ∀ q a, L.fixed q = some a → L.heap.words[q]? = some a
  apart : ∀ x y p q, L.place x = some p → L.place y = some q → x ≠ y → p ≠ q ∧ p + 1 ≠ q
  loose : ∀ x q, L.place x = some q → L.fixed q = none ∧ L.fixed (q + 1) = none
  known : ∀ k q, L.place (.cell k) = some q → k < σ.next
  cell : ∀ x q, L.place x = some q → L.Cell image q (σ.value x)

end

/-- what code may do to a layout -/
structure Grows (low : Nat) (L L' : Layout) : Prop where
  place : ∀ x q, L.place x = some q → L'.place x = some q
  place_new : ∀ x q, L'.place x = some q → L.place x = some q ∨ low ≤ q
  fixed : ∀ q a, L.fixed q = some a → L'.fixed q = some a
  fixed_new : ∀ q, q < low → L.fixed q = none → L'.fixed q = none
  kept : ∀ q, q < low → (∀ x p, L.place x = some p → p ≠ q ∧ p + 1 ≠ q) →
    L'.heap.words[q]? = L.heap.words[q]?
  size : L.heap.words.size ≤ L'.heap.words.size

namespace Grows

variable {low low' : Nat} {L L' L'' : Layout}

theorem refl (low : Nat) (L : Layout) : L.Grows low L :=
  ⟨fun _ _ => id, fun _ _ => .inl, fun _ _ => id, fun _ _ => id, fun _ _ _ => rfl, le_rfl⟩

theorem trans (h : Grows low L L') (h' : Grows low L' L'') : Grows low L L'' where
  place x q hq := h'.place x q (h.place x q hq)
  place_new x q hq := by
    rcases h'.place_new x q hq with hq | hq
    · exact h.place_new x q hq
    · exact .inr hq
  fixed q a hq := h'.fixed q a (h.fixed q a hq)
  fixed_new q hlow hq := h'.fixed_new q hlow (h.fixed_new q hlow hq)
  kept q hlow hq := by
    rw [h'.kept q hlow, h.kept q hlow hq]
    intro x p hp
    rcases h.place_new x p hp with hp | hp
    · exact hq x p hp
    · omega
  size := h.size.trans h'.size

theorem lower (h : Grows low' L L') (hlow : low ≤ low') : Grows low L L' where
  place := h.place
  place_new x q hq := (h.place_new x q hq).imp_right hlow.trans
  fixed := h.fixed
  fixed_new q hq := h.fixed_new q (by omega)
  kept q hq := h.kept q (by omega)
  size := h.size

end Grows

/-! ## What stays true when a layout grows -/

section
variable {image : Image Op} {low low' q : Nat} {L L' : Layout} {σ : Store} {v : Value} {payload tag : Int}

theorem Element.grows {vector i a : Int} (h : L.Element vector i a) (hg : Grows low L L') : L'.Element vector i a := by
  obtain ⟨g, j, hv, hi, hf⟩ := h
  exact ⟨g, j, hv, hi, hg.fixed _ _ hf⟩

theorem Holds.grows (h : L.Holds image payload tag v) (hg : Grows low L L') : L'.Holds image payload tag v := by
  cases v with
  | int n =>
    obtain ⟨ht, hn, r, hp, hf⟩ := h
    exact ⟨ht, hn, r, hp, hg.fixed _ _ hf⟩
  | function f =>
    obtain ⟨ht, r, g, entry, captures, hp, hr, hr', hem, hc⟩ := h
    refine ⟨ht, r, g, entry, captures, hp, hg.fixed _ _ hr, hg.fixed _ _ hr', hem, fun i x hx => ?_⟩
    obtain ⟨q, hq, hf⟩ := hc i x hx
    exact ⟨q, hg.place _ _ hq, hg.fixed _ _ hf⟩

theorem Cell.size (h : L.Cell image q v) : q + 1 < L.heap.words.size := by
  obtain ⟨_, _, -, h, -⟩ := h
  by_contra hge
  rw [Array.getElem?_eq_none (by omega)] at h
  cases h

theorem Fresh.lower (h : L.Fresh image low' q v) (hlow : low ≤ low') : L.Fresh image low q v :=
  { h with low_le := hlow.trans h.low_le }

/-- a cell that lies below what code may change -/
theorem Fresh.grows (h : L.Fresh image low q v) (hg : Grows low' L L') (hq : q + 1 < low') :
    L'.Fresh image low q v where
  low_le := h.low_le
  free := by
    refine ⟨fun x p hp => ?_, hg.fixed_new _ (by omega) h.free.loose.1, hg.fixed_new _ hq h.free.loose.2⟩
    rcases hg.place_new x p hp with hp | hp
    · exact h.free.apart x p hp
    · omega
  cell := by
    obtain ⟨payload, tag, hp, ht, hh⟩ := h.cell
    refine ⟨payload, tag, ?_, ?_, hh.grows hg⟩
    · rw [hg.kept q (by omega), hp]
      intro x p hx
      exact ⟨(h.free.apart x p hx).1, (h.free.apart x p hx).2.1⟩
    · rw [hg.kept (q + 1) hq, ht]
      intro x p hx
      have := h.free.apart x p hx
      omega

namespace Agrees

theorem fixed_none (h : L.Agrees image σ) (hq : L.heap.words.size ≤ q) : L.fixed q = none := by
  cases hf : L.fixed q with
  | none => rfl
  | some a =>
    have := h.fixed q a hf
    rw [Array.getElem?_eq_none hq] at this
    cases this

theorem fixed_size {a : Int} (h : L.Agrees image σ) (hq : L.fixed q = some a) : q < L.heap.words.size := by
  by_contra hge
  rw [h.fixed_none (Nat.le_of_not_lt hge)] at hq
  cases hq

theorem free_size (h : L.Agrees image σ) : L.Free L.heap.words.size where
  apart x p hp := by
    have := (h.cell x p hp).size
    omega
  loose := ⟨h.fixed_none le_rfl, h.fixed_none (Nat.le_succ _)⟩

end Agrees
end

/-! ## Steps of a heap -/

/-- words at the end of the heap -/
def append (L : Layout) (ws : List Int) : Layout := { L with heap := L.heap.append ws }

/-- words at the end of the heap that never change -/
def block (L : Layout) (ws : List Int) : Layout :=
  { L with
    heap := L.heap.append ws
    fixed := fun q => if L.heap.words.size ≤ q then ws[q - L.heap.words.size]? else L.fixed q }

/-- the cell at `q` becomes the cell of a variable -/
def track (L : Layout) (x : Variable) (q : Nat) : Layout :=
  { L with place := fun y => if y = x then some q else L.place y }

/-- another value in the cell at `q` -/
def assign (L : Layout) (q : Nat) (payload tag : Int) : Layout :=
  { L with heap := (L.heap.set q payload).set (q + 1) tag }

section
variable {image : Image Op} {low q : Nat} {L : Layout} {σ : Store} {v : Value} {payload tag : Int} {ws : List Int}

theorem grows_append (hlow : low ≤ L.heap.words.size) (ws : List Int) : Grows low L (L.append ws) where
  place _ _ := id
  place_new _ _ := .inl
  fixed _ _ := id
  fixed_new _ _ := id
  kept q hq _ := Heap.getElem?_append_old (by omega)
  size := by simp [append]

theorem Cell.append (h : L.Cell image q v) (ws : List Int) : (L.append ws).Cell image q v := by
  obtain ⟨payload, tag, hp, ht, hh⟩ := h
  exact ⟨payload, tag, Heap.getElem?_append_of_some hp, Heap.getElem?_append_of_some ht,
    hh.grows (grows_append (Nat.zero_le _) ws)⟩

theorem Agrees.append (h : L.Agrees image σ) (ws : List Int) : (L.append ws).Agrees image σ where
  fixed q a hq := Heap.getElem?_append_of_some (h.fixed q a hq)
  apart := h.apart
  loose := h.loose
  known := h.known
  cell x q hq := (h.cell x q hq).append ws

/-- a new cell -/
theorem Agrees.fresh_append (h : L.Agrees image σ) (hlow : low ≤ L.heap.words.size)
    (hh : L.Holds image payload tag v) :
    (L.append [payload, tag]).Fresh image low L.heap.words.size v where
  low_le := hlow
  free := ⟨h.free_size.apart, h.free_size.loose⟩
  cell := by
    refine ⟨payload, tag, ?_, ?_, hh.grows (grows_append (Nat.zero_le _) _)⟩
    · exact Heap.getElem?_append_new L.heap _ 0
    · exact Heap.getElem?_append_new L.heap _ 1

theorem fixed_block (L : Layout) (ws : List Int) (i : Nat) : (L.block ws).fixed (L.heap.words.size + i) = ws[i]? := by
  simp [block]

theorem Agrees.grows_block (h : L.Agrees image σ) (hlow : low ≤ L.heap.words.size) (ws : List Int) :
    Grows low L (L.block ws) where
  place _ _ := id
  place_new _ _ := .inl
  fixed q a hq := by
    have hsize := h.fixed_size hq
    simp only [block]
    rw [if_neg (by omega), hq]
  fixed_new q hq hn := by
    simp only [block]
    rw [if_neg (by omega), hn]
  kept q hq _ := Heap.getElem?_append_old (by omega)
  size := by simp [block]

theorem Cell.block (h : L.Cell image q v) (ha : L.Agrees image σ) (ws : List Int) : (L.block ws).Cell image q v := by
  obtain ⟨payload, tag, hp, ht, hh⟩ := h
  exact ⟨payload, tag, Heap.getElem?_append_of_some hp, Heap.getElem?_append_of_some ht,
    hh.grows (ha.grows_block (Nat.zero_le _) ws)⟩

theorem Agrees.block (h : L.Agrees image σ) (ws : List Int) : (L.block ws).Agrees image σ where
  fixed q a hq := by
    simp only [Layout.block] at hq ⊢
    split at hq
    · rename_i hsize
      obtain ⟨i, rfl⟩ := Nat.exists_eq_add_of_le hsize
      rw [Nat.add_sub_cancel_left] at hq
      rw [Heap.getElem?_append_new, hq]
    · exact Heap.getElem?_append_of_some (h.fixed q a hq)
  apart := h.apart
  loose x q hq := by
    have hsize := (h.cell x q hq).size
    simp only [Layout.block]
    rw [if_neg (by omega), if_neg (by omega)]
    exact h.loose x q hq
  known := h.known
  cell x q hq := (h.cell x q hq).block h ws

/-! ## Cells that become cells of variables -/

theorem place_track (L : Layout) (x : Variable) (q : Nat) : (L.track x q).place x = some q := if_pos rfl

theorem grows_track {x : Variable} (hx : L.place x = none) (hq : low ≤ q) : Grows low L (L.track x q) where
  place y p hp := by
    simp only [track]
    rw [if_neg, hp]
    rintro rfl
    rw [hx] at hp
    cases hp
  place_new y p hp := by
    simp only [track] at hp
    split at hp
    · cases hp
      exact .inr hq
    · exact .inl hp
  fixed _ _ := id
  fixed_new _ _ := id
  kept _ _ _ := rfl
  size := le_rfl

/-- only variables with a cell count -/
theorem Agrees.store {σ' : Store} (h : L.Agrees image σ)
    (hvalue : ∀ x q, L.place x = some q → σ'.value x = σ.value x) (hnext : σ.next ≤ σ'.next) : L.Agrees image σ' where
  fixed := h.fixed
  apart := h.apart
  loose := h.loose
  known k q hq := (h.known k q hq).trans_le hnext
  cell x q hq := by
    rw [hvalue x q hq]
    exact h.cell x q hq

theorem Cell.track {x : Variable} {p : Nat} (h : L.Cell image p v) (hx : L.place x = none) (q : Nat) :
    (L.track x q).Cell image p v := by
  obtain ⟨payload, tag, hp, ht, hh⟩ := h
  exact ⟨payload, tag, hp, ht, hh.grows (grows_track hx (Nat.zero_le q))⟩

theorem place_of_track {x y : Variable} {p : Nat} (h : (L.track x q).place y = some p) :
    y = x ∧ p = q ∨ L.place y = some p := by
  simp only [Layout.track] at h
  split at h
  · rename_i hy
    exact .inl ⟨hy, (Option.some.inj h).symm⟩
  · exact .inr h

/-- a variable gets a cell that holds its value -/
theorem Agrees.track {x : Variable} (h : L.Agrees image σ) (hx : L.place x = none) (hq : L.Free q)
    (hv : L.Cell image q (σ.value x)) (hk : ∀ k, x = .cell k → k < σ.next) : (L.track x q).Agrees image σ := by
  refine ⟨h.fixed, fun y z p r hp hr hyz => ?_, fun y p hp => ?_, fun k p hp => ?_, fun y p hp => ?_⟩
  · rcases place_of_track hp with ⟨rfl, rfl⟩ | hp' <;> rcases place_of_track hr with ⟨rfl, rfl⟩ | hr'
    · exact absurd rfl hyz
    · have := hq.apart z r hr'
      omega
    · have := hq.apart y p hp'
      omega
    · exact h.apart y z p r hp' hr' hyz
  · rcases place_of_track hp with ⟨rfl, rfl⟩ | hp
    · exact hq.loose
    · exact h.loose y p hp
  · rcases place_of_track hp with ⟨hy, -⟩ | hp
    · exact hk k hy.symm
    · exact h.known k p hp
  · rcases place_of_track hp with ⟨rfl, rfl⟩ | hp
    · exact hv.track hx _
    · exact (h.cell y p hp).track hx _

theorem Fresh.track {x : Variable} {p : Nat} (h : L.Fresh image low p v) (hx : L.place x = none) (hq : q + 1 < p) :
    (L.track x q).Fresh image low p v where
  low_le := h.low_le
  free := by
    refine ⟨fun y r hr => ?_, h.free.loose⟩
    rcases place_of_track hr with ⟨-, rfl⟩ | hr
    · omega
    · exact h.free.apart y r hr
  cell := h.cell.track hx q

/-! ## Several new cells -/

/-- new cells with the values, each one above the one before, and their addresses -/
inductive FreshCells (image : Image Op) : Nat → Layout → List Value → List Int → Prop
  | nil {low : Nat} {L : Layout} : FreshCells image low L [] []
  | cons {low low' q : Nat} {L : Layout} {v : Value} {vs : List Value} {as : List Int} : L.Fresh image low q v →
    q + 1 < low' → FreshCells image low' L vs as → FreshCells image low L (v :: vs) (address q :: as)

namespace FreshCells

variable {low' : Nat} {vs : List Value} {as : List Int}

theorem lower (h : FreshCells image low' L vs as) (hlow : low ≤ low') : FreshCells image low L vs as := by
  cases h with
  | nil => exact .nil
  | cons hv hq h => exact .cons (hv.lower hlow) hq h

theorem grows {L' : Layout} (h : FreshCells image low L vs as) (hg : Grows L.heap.words.size L L') :
    FreshCells image low L' vs as := by
  induction h with
  | nil => exact .nil
  | cons hv hq _ ih => exact .cons (hv.grows hg hv.cell.size) hq (ih hg)

theorem length_eq (h : FreshCells image low L vs as) : as.length = vs.length := by
  induction h with
  | nil => rfl
  | cons _ _ _ ih => simp [ih]

theorem track {x : Variable} (h : FreshCells image low L vs as) (hx : L.place x = none) (hq : q + 1 < low) :
    FreshCells image low (L.track x q) vs as := by
  induction h with
  | nil => exact .nil
  | cons hv hq' _ ih =>
    have := hv.low_le
    exact .cons (hv.track hx (by omega)) hq' (ih hx (by omega))

end FreshCells

/-- **New variables.** Variables without cells get new cells that hold their values. -/
theorem Agrees.trackAll {xs : List Variable} {as : List Int} (h : L.Agrees image σ) (hnodup : xs.Nodup)
    (hx : ∀ x ∈ xs, L.place x = none) (hk : ∀ k, .cell k ∈ xs → k < σ.next)
    (hc : FreshCells image low L (xs.map σ.value) as) :
    ∃ L' : Layout, L'.heap = L.heap ∧ Grows low L L' ∧ L'.Agrees image σ ∧
      ∀ (i : Nat) (x : Variable), xs[i]? = some x → ∃ q, as[i]? = some (address q) ∧ L'.place x = some q := by
  induction xs generalizing L low as with
  | nil =>
    refine ⟨L, rfl, .refl low L, h, fun i x hi => ?_⟩
    simp at hi
  | cons x xs ih =>
    rw [List.nodup_cons] at hnodup
    have hx₀ := hx x List.mem_cons_self
    cases hc with
    | @cons _ low' q _ _ _ as hv hq hc =>
      have hle : low ≤ low' := hv.low_le.trans (by omega)
      have hxs : ∀ y ∈ xs, (L.track x q).place y = none := by
        intro y hy
        simp only [Layout.track]
        rw [if_neg (by rintro rfl; exact hnodup.1 hy)]
        exact hx y (List.mem_cons_of_mem _ hy)
      obtain ⟨L', hheap, hg, ha, hplace⟩ := ih (h.track hx₀ hv.free hv.cell fun k hxk => hk k (by simp [hxk])) hnodup.2
        hxs (fun k hmem => hk k (List.mem_cons_of_mem _ hmem)) (hc.track hx₀ hq)
      refine ⟨L', hheap, (grows_track hx₀ hv.low_le).trans (hg.lower hle), ha, fun i y hi => ?_⟩
      cases i with
      | zero =>
        obtain rfl : x = y := by simpa using hi
        exact ⟨q, rfl, hg.place _ _ (place_track L x q)⟩
      | succ i => exact hplace i y (by simpa using hi)

/-- **New cells of a store.** The cells that a block or a call makes hold its initial values. -/
theorem Agrees.enter {vs : List Value} {as : List Int} (h : L.Agrees image σ) (hc : FreshCells image low L vs as) :
    ∃ L' : Layout, L'.heap = L.heap ∧ Grows low L L' ∧ L'.Agrees image (σ.cells (vs.map fun v _ => v)) ∧
      ∀ i, i < vs.length → ∃ q, as[i]? = some (address q) ∧ L'.place (.cell (σ.next + i)) = some q := by
  have hnext := σ.cells_next (vs.map fun v _ => v)
  rw [List.length_map] at hnext
  have hold : ∀ x q, L.place x = some q → (σ.cells (vs.map fun v _ => v)).value x = σ.value x := by
    intro x q hq
    refine Store.cells_value_old fun i hi => ?_
    have := h.known _ q (hi ▸ hq)
    omega
  have ha := h.store hold (by omega)
  obtain ⟨L', hheap, hg, ha', hplace⟩ := ha.trackAll (σ.nodup_made vs.length) 
    (fun x hx => by
      obtain ⟨i, -, rfl⟩ := Store.mem_made.1 hx
      cases hp : L.place (.cell (σ.next + i)) with
      | none => rfl
      | some q =>
        have := h.known _ q hp
        omega)
    (fun k hk => by
      obtain ⟨i, hi, hki⟩ := Store.mem_made.1 hk
      cases hki
      omega)
    (by rwa [σ.map_value_made vs])
  exact ⟨L', hheap, hg, ha', fun i hi => hplace i _ (by simp [Store.made, hi])⟩

/-! ## Assignments -/

theorem Agrees.grows_assign {x : Variable} (hx : L.place x = some q) (payload tag : Int) :
    Grows low L (L.assign q payload tag) where
  place _ _ := id
  place_new _ _ := .inl
  fixed _ _ := id
  fixed_new _ _ := id
  kept p _ hp := by
    have := hp x q hx
    simp only [assign]
    rw [Heap.getElem?_set_ne this.2, Heap.getElem?_set_ne this.1]
  size := by simp [assign]

theorem Agrees.assign {x : Variable} (h : L.Agrees image σ) (hx : L.place x = some q)
    (hh : L.Holds image payload tag v) : (L.assign q payload tag).Agrees image (σ.write x v) := by
  have hg : Grows 0 L (L.assign q payload tag) := grows_assign hx payload tag
  have hsize := (h.cell x q hx).size
  have hother : ∀ p, p ≠ q → p ≠ q + 1 → (L.assign q payload tag).heap.words[p]? = L.heap.words[p]? := by
    intro p hp hp'
    simp only [Layout.assign]
    rw [Heap.getElem?_set_ne (Ne.symm hp'), Heap.getElem?_set_ne (Ne.symm hp)]
  refine ⟨fun p a hp => ?_, h.apart, h.loose, h.known, fun y p hp => ?_⟩
  · rw [hother p, h.fixed p a hp]
    · rintro rfl
      exact nomatch (h.loose x p hx).1.symm.trans hp
    · rintro rfl
      exact nomatch (h.loose x q hx).2.symm.trans hp
  · by_cases hy : y = x
    · subst hy
      obtain rfl : q = p := Option.some.inj (hx.symm.trans hp)
      refine ⟨payload, tag, ?_, ?_, ?_⟩
      · simp only [Layout.assign]
        rw [Heap.getElem?_set_ne (by omega), Heap.getElem?_set_self (by omega)]
      · exact Heap.getElem?_set_self (by simpa using hsize)
      · simp only [Store.write, if_pos]
        exact hh.grows hg
    · obtain ⟨payload', tag', hp', ht', hh'⟩ := h.cell y p hp
      have h₁ := h.apart x y q p hx hp (Ne.symm hy)
      have h₂ := h.apart y x p q hp hx hy
      refine ⟨payload', tag', ?_, ?_, ?_⟩
      · rw [hother p (by omega) (by omega), hp']
      · rw [hother (p + 1) (by omega) (by omega), ht']
      · simp only [Store.write, if_neg hy]
        exact hh'.grows hg

end
end Layout
end ThreeMachines.Vector
