/-
The vector machine as a setting.

A world is a stack, the registers and a layout of the heap. Code leaves the stack and the registers as it found them, and
the layout has grown from `low` on. `Scoped` says that the names of a scope find the cells of their variables, and that the
frame pointer lies where the generator's depth puts it.

What an expression leaves on the stack depends on the mode (`Shown`): the word of a number, or a fresh cell that holds the
value. The lemmas `reaches_` follow the short pieces of code that make one from the other.
-/
import ThreeMachines.Proofs.Vector.Layout
import ThreeMachines.Proofs.Vector.Operations

namespace ThreeMachines.Vector

open Heap (address)

structure World where
  words : Array Int
  regs : Registers
  layout : Layout

namespace World

def mem (w : World) : Memory Registers := ⟨w.words, w.layout.heap, w.regs⟩

def push (w : World) (a : Int) : World := { w with words := w.words.push a }

/-- several words on top, the last one uppermost -/
def pushes (w : World) (as : List Int) : World := { w with words := w.words ++ as.toArray }

/-- the same stack over another layout -/
def on (w : World) (L : Layout) : World := { w with layout := L }

/-- what code may do to a world -/
structure Leads (low : Nat) (w w' : World) : Prop where
  grows : w.layout.Grows low w'.layout
  words : w'.words = w.words
  regs : w'.regs = w.regs

theorem Leads.lower {low low' : Nat} {w w' : World} (h : Leads low' w w') (hlow : low ≤ low') : Leads low w w' :=
  { h with grows := h.grows.lower hlow }

theorem leads_on {low : Nat} {w : World} {L : Layout} (h : w.layout.Grows low L) : Leads low w (w.on L) :=
  ⟨h, rfl, rfl⟩

end World

/-- the vector machine with its code in the image; cells below `low` are safe -/
abbrev setting (image : Image Op) (low : Nat) : Setting Registers where
  World := World
  mem := World.mem
  push := World.push
  Agrees w σ := w.layout.Agrees image σ
  Leads := World.Leads low
  mem_push _ _ := rfl
  agrees_push _ h := h
  leads_refl w := ⟨.refl low _, rfl, rfl⟩
  leads_trans h h' := ⟨h.grows.trans h'.grows, h'.words.trans h.words, h'.regs.trans h.regs⟩
  leads_push := by
    rintro w ⟨_, _, L⟩ a σ σ' - ⟨hg, rfl, rfl⟩ h'
    exact ⟨w.on L, rfl, ⟨hg, rfl, rfl⟩, h'⟩

section
variable {image : Image Op} {low low' k : Nat} {w w' : World} {α : Type} {as : List Int} {c : Code Op} {x : Eval α}

/-- code that is careful with more cells -/
theorem computes_lower {R : World → α → List Int → Prop} (R' : World → α → List Int → Prop) (hlow : low ≤ low')
    (h : (setting image low').Computes image k w as c x R)
    (hr : ∀ w' v bs, World.Leads low' w w' → R w' v bs → R' w' v bs) :
    (setting image low).Computes image k w as c x R' := by
  intro pc σ hp ha
  refine (h pc σ hp ha).imp fun v σ' b hq => ?_
  obtain ⟨w', bs, hl, ha', hr', rfl⟩ := hq
  exact ⟨w', bs, World.Leads.lower hl hlow, ha', hr w' v bs hl hr', rfl⟩

theorem pushes_eq (w : World) (as : List Int) : (setting image low).pushes w as = w.pushes as := by
  induction as generalizing w with
  | nil => simp [World.pushes, Setting.pushes]
  | cons a as ih =>
    refine (ih (w.push a)).trans ?_
    simp [World.pushes, World.push]

theorem mem_pushes (w : World) (as : List Int) : (w.pushes as).mem = w.mem.pushes as := by
  rw [Memory.pushes_eq]
  rfl

end

/-! ## Names and their cells -/

/-- the address of the variable's cell lies where the binding says -/
def Addressed (w : World) (b : Binding) (a : Int) : Prop :=
  match b.storage with
  | .blockLocal => ∃ i : Nat, (i : Int) = w.regs.fp + b.address ∧ w.words[i]? = some a
  | .formal => w.layout.Element w.regs.formals b.address a
  | .global | .captured => w.layout.Element w.regs.gp b.address a

/-- the binding finds the cell of the variable -/
def Located (w : World) (b : Binding) (x : Variable) : Prop :=
  ∃ q, w.layout.place x = some q ∧ Addressed w b (address q)

/-- the names of a scope find their cells, and `depth` counts the words over the frame pointer -/
structure Scoped (low : Nat) (w : World) (env : Env) (ρ : Scope) (depth : Int) : Prop where
  low_le : low ≤ w.layout.heap.words.size
  size : w.regs.fp + depth + 1 = w.words.size
  finds : Resolves (Located w) env ρ

section
variable {low low' : Nat} {w w' : World} {b : Binding} {x : Variable} {env : Env} {ρ : Scope} {depth : Int}

theorem Located.leads (h : Located w b x) (hl : World.Leads low w w') : Located w' b x := by
  obtain ⟨q, hq, ha⟩ := h
  refine ⟨q, hl.grows.place x q hq, ?_⟩
  rw [Addressed] at ha ⊢
  rw [hl.words, hl.regs]
  split <;> rename_i hs <;> rw [hs] at ha
  exacts [ha, ha.grows hl.grows, ha.grows hl.grows, ha.grows hl.grows]

theorem Located.pushes (h : Located w b x) (as : List Int) : Located (w.pushes as) b x := by
  obtain ⟨q, hq, ha⟩ := h
  refine ⟨q, hq, ?_⟩
  rw [Addressed] at ha ⊢
  split <;> rename_i hs <;> rw [hs] at ha
  · obtain ⟨i, hi, hw⟩ := ha
    refine ⟨i, hi, ?_⟩
    have hlt : i < w.words.size := by
      by_contra hge
      rw [Array.getElem?_eq_none (by omega)] at hw
      cases hw
    simp only [World.pushes]
    rw [Array.getElem?_append_left hlt, hw]
  all_goals exact ha

theorem Located.push (h : Located w b x) (a : Int) : Located (w.push a) b x := by
  have := h.pushes [a]
  rwa [World.pushes, ← Array.push_eq_append] at this

theorem Scoped.leads (h : Scoped low w env ρ depth) (hl : World.Leads low' w w') : Scoped low w' env ρ depth where
  low_le := h.low_le.trans hl.grows.size
  size := by rw [hl.words, hl.regs, h.size]
  finds := h.finds.imp fun _ _ hb => hb.leads hl

theorem Scoped.push (h : Scoped low w env ρ depth) (a : Int) : Scoped low (w.push a) env ρ (depth + 1) where
  low_le := h.low_le
  size := by
    have := h.size
    simp only [World.push, Array.size_push]
    push_cast
    omega
  finds := h.finds.imp fun _ _ hb => hb.push a

/-- as careful as can be -/
theorem Scoped.raise (h : Scoped low w env ρ depth) : Scoped w.layout.heap.words.size w env ρ depth :=
  { h with low_le := le_rfl }

end

/-! ## What an expression leaves -/

/-- the word of a number, or a fresh cell that holds the value -/
def Shown (image : Image Op) (low : Nat) (mode : Mode) (w : World) (v : Value) (a : Int) : Prop :=
  match mode with
  | .basic => ∀ n, v = .int n → a = n ∧ isWord n = true
  | .value => ∃ q, a = address q ∧ w.layout.Fresh image low q v

/-- one word that shows the value -/
abbrev Result (image : Image Op) (low : Nat) (mode : Mode) : World → Value → List Int → Prop :=
  (setting image low).Single (Shown image low mode)

section
variable {image : Image Op} {low pc q : Nat} {w : World} {σ : Store} {mode : Mode} {v : Value} {n : Int}

theorem Shown.of_layout {w' : World} {a : Int} (h : Shown image low mode w v a) (hw : w'.layout = w.layout) :
    Shown image low mode w' v a := by
  cases mode with
  | basic => exact h
  | value =>
    rw [Shown, hw]
    exact h

/-- a value that lies on the stack while more code runs over it -/
theorem Shown.leads {w' : World} {a : Int} (h : Shown image low mode w v a)
    (hl : World.Leads w.layout.heap.words.size w w') : Shown image low mode w' v a := by
  cases mode with
  | basic => exact h
  | value =>
    obtain ⟨q, ha, hq⟩ := h
    exact ⟨q, ha, hq.grows hl.grows hq.cell.size⟩

theorem reaches_box (hp : Placed image pc mode.box) (ha : w.layout.Agrees image σ)
    (hlow : low ≤ w.layout.heap.words.size) (hn : isWord n = true) :
    ∃ L a, w.layout.Grows low L ∧ L.Agrees image σ ∧ Shown image low mode (w.on L) (.int n) a ∧
      image.Reaches ⟨pc, w.mem.push n⟩ ⟨pc + mode.box.length, (w.on L).mem.push a⟩ := by
  cases mode with
  | basic => exact ⟨w.layout, n, .refl low _, ha, fun m hm => by cases hm; exact ⟨rfl, hn⟩, .refl _⟩
  | value =>
    have hg := ha.grows_block hlow [n]
    have ha₁ := ha.block [n]
    have hlow₁ := hlow.trans hg.size
    have hh : (w.layout.block [n]).Holds image (address w.layout.heap.words.size) Tag.basic.word (.int n) :=
      ⟨rfl, hn, _, rfl, w.layout.fixed_block [n] 0⟩
    exact ⟨_, _, hg.trans (Layout.grows_append hlow₁ _), ha₁.append _, ⟨_, rfl, ha₁.fresh_append hlow₁ hh⟩,
      (moves_mkbasic hp.1).reaches.trans (moves_mkind hp.2.1).reaches⟩

theorem reaches_getbasic (h : image.instrs[pc]? = some (.own .getbasic)) (ha : w.layout.Agrees image σ)
    (hv : w.layout.Cell image q v) :
    ∃ a, Shown image low .basic w v a ∧ image.Reaches ⟨pc, w.mem.push (address q)⟩ ⟨pc + 1, w.mem.push a⟩ := by
  obtain ⟨payload, tag, hp, ht, hh⟩ := hv
  cases v with
  | int n =>
    obtain ⟨rfl, hn, r, rfl, hr⟩ := hh
    exact ⟨n, fun m hm => by cases hm; exact ⟨rfl, hn⟩,
      (moves_getbasic_basic h hp ht (ha.fixed r n hr)).reaches⟩
  | function f =>
    obtain ⟨rfl, -⟩ := hh
    exact ⟨payload, fun m hm => (by cases hm), (moves_getbasic_other (m := w.mem) h hp ht (by decide)).reaches⟩

/-- the value of a variable whose cell is on top -/
theorem reaches_read {x : Variable} (hp : Placed image pc mode.read) (ha : w.layout.Agrees image σ)
    (hlow : low ≤ w.layout.heap.words.size) (hx : w.layout.place x = some q) :
    ∃ L a, w.layout.Grows low L ∧ L.Agrees image σ ∧ Shown image low mode (w.on L) (σ.value x) a ∧
      image.Reaches ⟨pc, w.mem.push (address q)⟩ ⟨pc + mode.read.length, (w.on L).mem.push a⟩ := by
  cases mode with
  | basic =>
    obtain ⟨a, hv, hreach⟩ := reaches_getbasic hp.1 ha (ha.cell x q hx)
    exact ⟨w.layout, a, .refl low _, ha, hv, hreach⟩
  | value =>
    obtain ⟨payload, tag, hpay, htag, hh⟩ := ha.cell x q hx
    exact ⟨_, _, Layout.grows_append hlow _, ha.append _, ⟨_, rfl, ha.fresh_append hlow hh⟩,
      (moves_copy hp.1 hpay htag).reaches⟩

/-- the value of a fresh cell -/
theorem reaches_unbox (hp : Placed image pc mode.unbox) (ha : w.layout.Agrees image σ)
    (hv : w.layout.Fresh image low q v) :
    ∃ a, Shown image low mode w v a ∧
      image.Reaches ⟨pc, w.mem.push (address q)⟩ ⟨pc + mode.unbox.length, w.mem.push a⟩ := by
  cases mode with
  | basic => exact reaches_getbasic hp.1 ha hv.cell
  | value => exact ⟨_, ⟨q, rfl, hv⟩, .refl _⟩

/-- the cell of a variable -/
theorem reaches_storage {b : Binding} {x : Variable} (h : image.instrs[pc]? = some (storage b))
    (ha : w.layout.Agrees image σ) (hb : Located w b x) :
    ∃ q, w.layout.place x = some q ∧ image.Reaches ⟨pc, w.mem⟩ ⟨pc + 1, w.mem.push (address q)⟩ := by
  obtain ⟨q, hq, hb⟩ := hb
  refine ⟨q, hq, ?_⟩
  have helement : ∀ vector i, w.layout.Element vector i (address q) → ∃ g j : Nat, vector = address g ∧ i = j ∧
      w.layout.heap.words[g + 1 + j]? = some (address q) := by
    rintro vector i ⟨g, j, hv, hi, hf⟩
    exact ⟨g, j, hv, hi, ha.fixed _ _ hf⟩
  rw [Addressed] at hb
  rw [storage] at h
  cases hs : b.storage <;> rw [hs] at hb h
  · obtain ⟨g, j, hg, hj, hw⟩ := helement _ _ hb
    exact (moves_pushglob h hg hj hw).reaches
  · obtain ⟨i, hi, hw⟩ := hb
    exact (moves_pushloc h hi hw).reaches
  · obtain ⟨g, j, hg, hj, hw⟩ := helement _ _ hb
    exact (moves_pushform h hg hj hw).reaches
  · obtain ⟨g, j, hg, hj, hw⟩ := helement _ _ hb
    exact (moves_pushglob h hg hj hw).reaches

end
end ThreeMachines.Vector
