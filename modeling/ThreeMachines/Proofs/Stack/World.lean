/-
The stack machine as a setting.

A world is a stack, the frame pointer and the places of the variables on the stack. Code leaves the places and the frame
pointer as it found them, and of the stack below it changes the words of variables only (`World.Leads`). Blocks and calls
run their code in a world with more variables on top (`World.Opens`), and drop these variables at the end
(`World.Opens.close`).

A number is its word, and a procedure is the address of its code. It uses no variables of the code around it but globals,
so it needs no environment (`Entry`).
-/
import ThreeMachines.Proofs.Skeletons
import ThreeMachines.Proofs.Stack.Emission
import ThreeMachines.Proofs.Stack.Operations

namespace ThreeMachines.Stack

structure World where
  words : Array Int
  fp : Int
  place : Variable → Option Nat

/-! ## Values -/

/-- the code of a procedure without the jump around it -/
def entered (entry : Label) (locals : Int) (body : Code Op) : Code Op :=
  [.label entry, .own .enter] ++ (if locals = 0 then [] else [.own (.alloc (wordSize * locals))]) ++ body ++
    [.own (.loadrc firstFormal), .own .store, .pop, .own .ret]

theorem procedure_eq (entry stop : Label) (locals : Int) (body : Code Op) :
    procedure entry stop locals body =
      .jump stop :: (entered entry locals body ++ [.label stop, .loadc (.addr entry)]) := by
  simp [procedure, entered]

section
variable (image : Image Op) (globals : List String)

/-- a procedure has its code at `entry`, and the names that it does not bind are globals -/
structure Entry (f : FunctionValue) (entry : Nat) : Prop where
  code : ∃ l c, Placed image entry (entered l f.locals.length c) ∧
    Emits globals (Scope.empty.extend (frameBindings f.params f.locals)) f.locals.length f.body c
  nodup : (f.params ++ f.locals).Nodup
  outer : ∀ x ∈ f.body.captures (f.params ++ f.locals), f.env.variable x = .global x

/-- the word of a value -/
def Shown : Value → Int → Prop
  | .int n, a => a = n ∧ isWord n = true
  | .function f, a => ∃ entry : Nat, a = Image.base + entry ∧ Entry image globals f entry

end

/-! ## Worlds -/

namespace World

def mem (w : World) : Memory Registers := ⟨w.words, .empty, ⟨w.fp⟩⟩

def push (w : World) (a : Int) : World := { w with words := w.words.push a }

/-- several words on top, the last one uppermost -/
def pushes (w : World) (as : List Int) : World := { w with words := w.words ++ as.toArray }

/-- another word at a place -/
def write (w : World) (i : Nat) (a : Int) : World := { w with words := w.words.setIfInBounds i a }

/-- the words of the variables show their values -/
structure Agrees (image : Image Op) (globals : List String) (w : World) (σ : Store) : Prop where
  apart : ∀ x y i, w.place x = some i → w.place y = some i → x = y
  known : ∀ k i, w.place (.cell k) = some i → k < σ.next
  holds : ∀ x i, w.place x = some i → ∃ a, w.words[i]? = some a ∧ Shown image globals (σ.value x) a

/-- what code may do to a world -/
structure Leads (w w' : World) : Prop where
  place : w'.place = w.place
  fp : w'.fp = w.fp
  size : w'.words.size = w.words.size
  kept : ∀ i, (∀ x, w.place x ≠ some i) → w'.words[i]? = w.words[i]?

/-- a world with more words and more variables on top -/
structure Opens (w w' : World) : Prop where
  words : ∀ i, i < w.words.size → w'.words[i]? = w.words[i]?
  place : ∀ x i, w.place x = some i → w'.place x = some i
  place_new : ∀ x i, w'.place x = some i → w.place x = some i ∨ w.words.size ≤ i

/-- what is left of a world when the words on top have been dropped -/
def closed (w w' : World) : World := { w with words := w'.words.take w.words.size }

/-- places for new cells -/
def placing (w : World) (first count : Nat) (position : Nat → Nat) : Variable → Option Nat
  | .cell k => if first ≤ k ∧ k < first + count then some (position (k - first)) else w.place (.cell k)
  | .global name => w.place (.global name)

section
variable {image : Image Op} {globals : List String} {w w' w'' : World} {σ σ' : Store} {x : Variable} {i : Nat}

/-! ### New places -/

theorem placing_new {first count j : Nat} {position : Nat → Nat} (h : j < count) :
    w.placing first count position (.cell (first + j)) = some (position j) := by
  rw [placing, if_pos (by omega), Nat.add_sub_cancel_left]

theorem placing_old {first count : Nat} {position : Nat → Nat} (h : ∀ k i, w.place (.cell k) = some i → k < first)
    (hx : w.place x = some i) : w.placing first count position x = some i := by
  cases x with
  | global name => exact hx
  | cell k =>
    have := h k i hx
    rw [placing, if_neg (by omega), hx]

theorem of_placing {first count : Nat} {position : Nat → Nat} (h : w.placing first count position x = some i) :
    w.place x = some i ∨ ∃ j, x = .cell (first + j) ∧ j < count ∧ i = position j := by
  cases x with
  | global name => exact .inl h
  | cell k =>
    rw [placing] at h
    split at h
    · rename_i hk
      exact .inr ⟨k - first, by rw [Nat.add_sub_cancel' hk.1], by omega, (Option.some.inj h).symm⟩
    · exact .inl h

/-! ### What code may do -/

theorem Leads.refl (w : World) : Leads w w := ⟨rfl, rfl, rfl, fun _ _ => rfl⟩

theorem Leads.trans (h : Leads w w') (h' : Leads w' w'') : Leads w w'' where
  place := h'.place.trans h.place
  fp := h'.fp.trans h.fp
  size := h'.size.trans h.size
  kept i hi := (h'.kept i (by rwa [h.place])).trans (h.kept i hi)

theorem Agrees.lt_size (h : Agrees image globals w σ) (hx : w.place x = some i) : i < w.words.size := by
  obtain ⟨_, ha, -⟩ := h.holds x i hx
  exact (Array.getElem?_eq_some_iff.1 ha).1

theorem Agrees.push (h : Agrees image globals w σ) (a : Int) : Agrees image globals (w.push a) σ where
  apart := h.apart
  known := h.known
  holds x i hx := by
    obtain ⟨b, hb, hv⟩ := h.holds x i hx
    exact ⟨b, by rw [World.push, Array.getElem?_push, if_neg (Nat.ne_of_lt (h.lt_size hx)), hb], hv⟩

/-- the word that was on top is still there -/
theorem Leads.of_push {a : Int} (h : Agrees image globals w σ) (hl : Leads (w.push a) w')
    (h' : Agrees image globals w' σ') : ∃ w₁, w' = w₁.push a ∧ Leads w w₁ ∧ Agrees image globals w₁ σ' := by
  obtain ⟨words, fp, place⟩ := w'
  obtain ⟨rfl, rfl, hsize, hkept⟩ := hl
  simp only [World.push, Array.size_push] at hsize hkept
  have htop := hkept w.words.size fun x hx => Nat.lt_irrefl _ (h.lt_size hx)
  rw [Array.getElem?_push_size] at htop
  have hwords : words = words.pop.push a := by
    refine Array.ext_getElem? fun i => ?_
    rw [Array.getElem?_push, Array.size_pop, hsize, Nat.add_sub_cancel, Array.getElem?_pop, hsize, Nat.add_sub_cancel]
    by_cases hi : i = w.words.size
    · rw [if_pos hi, hi, htop]
    · rw [if_neg hi]
      split
      · rfl
      · exact Array.getElem?_eq_none (by omega)
  have hold : ∀ i, i < w.words.size → words.pop[i]? = words[i]? := fun i hi => by
    rw [Array.getElem?_pop, if_pos (by omega)]
  refine ⟨⟨words.pop, w.fp, w.place⟩, ?_, ⟨rfl, rfl, ?_, fun i hi => ?_⟩, h'.apart, h'.known, fun x i hx => ?_⟩
  · simp only [World.push]
    rw [← hwords]
  · rw [Array.size_pop, hsize, Nat.add_sub_cancel]
  · by_cases hlt : i < w.words.size
    · rw [hold i hlt, hkept i hi, Array.getElem?_push, if_neg (Nat.ne_of_lt hlt)]
    · rw [Array.getElem?_eq_none (by rw [Array.size_pop]; omega), Array.getElem?_eq_none (by omega)]
  · obtain ⟨b, hb, hv⟩ := h'.holds x i hx
    exact ⟨b, by rw [hold i (h.lt_size hx)]; exact hb, hv⟩

theorem Agrees.write {v : Value} {a : Int} (h : Agrees image globals w σ) (hx : w.place x = some i)
    (hv : Shown image globals v a) : Agrees image globals (w.write i a) (σ.write x v) where
  apart := h.apart
  known := h.known
  holds y j hy := by
    simp only [World.write, Store.write]
    by_cases hyx : y = x
    · subst hyx
      obtain rfl : i = j := Option.some.inj (hx.symm.trans hy)
      exact ⟨a, by rw [Array.getElem?_setIfInBounds_self_of_lt (h.lt_size hx)], by rwa [if_pos rfl]⟩
    · obtain ⟨b, hb, hvb⟩ := h.holds y j hy
      have hij : i ≠ j := fun hij => hyx (h.apart y x j hy (hij ▸ hx))
      exact ⟨b, by rw [Array.getElem?_setIfInBounds_ne hij, hb], by rwa [if_neg hyx]⟩

theorem leads_write (hx : w.place x = some i) (a : Int) : Leads w (w.write i a) where
  place := rfl
  fp := rfl
  size := Array.size_setIfInBounds
  kept j hj := Array.getElem?_setIfInBounds_ne fun hij : i = j => hj x (hij ▸ hx)

/-! ### More variables on top -/

/-- new words at the end, and new variables among them -/
theorem Agrees.opens {as : List Int} {fp : Int} {count : Nat} {position : Nat → Nat} (h : Agrees image globals w σ)
    (hposition : ∀ j, j < count → w.words.size ≤ position j) :
    Opens w ⟨w.words ++ as.toArray, fp, w.placing σ.next count position⟩ where
  words i hi := by rw [Array.getElem?_append_left hi]
  place x i hx := placing_old h.known hx
  place_new x i hx := by
    rcases of_placing hx with hx | ⟨j, rfl, hj, rfl⟩
    exacts [.inl hx, .inr (hposition j hj)]

/-- the new variables have the values that the store gives them -/
theorem Agrees.enter (h : Agrees image globals w σ) (as : List Int) (fp : Int) (vs : List Value) (position : Nat → Nat)
    (hapart : ∀ j k, j < vs.length → k < vs.length → position j = position k → j = k)
    (hnew : ∀ j v, vs[j]? = some v → ∃ i a, position j = w.words.size + i ∧ as[i]? = some a ∧ Shown image globals v a) :
    Agrees image globals ⟨w.words ++ as.toArray, fp, w.placing σ.next vs.length position⟩
      (σ.cells (vs.map fun v _ => v)) := by
  have hnext := σ.cells_next (vs.map fun v _ => v)
  rw [List.length_map] at hnext
  have hsize : ∀ j, j < vs.length → w.words.size ≤ position j := fun j hj => by
    obtain ⟨i, -, hi, -⟩ := hnew j vs[j] (by simp [hj])
    omega
  -- a place of an old variable lies under the new words, a place of a new one among them
  refine ⟨fun x y i hx hy => ?_, fun k i hk => ?_, fun x i hx => ?_⟩
  · rcases of_placing hx with hx | ⟨j, rfl, hj, hij⟩ <;> rcases of_placing hy with hy | ⟨k, rfl, hk, hik⟩
    · exact h.apart x y i hx hy
    · exact absurd (h.lt_size hx) (Nat.not_lt.2 (hik ▸ hsize k hk))
    · exact absurd (h.lt_size hy) (Nat.not_lt.2 (hij ▸ hsize j hj))
    · rw [hapart j k hj hk (hij.symm.trans hik)]
  · have hk' : w.placing σ.next vs.length position (.cell k) = some i := hk
    rcases of_placing hk' with hk | ⟨j, hj, hlt, -⟩
    · have := h.known k i hk
      omega
    · rw [Variable.cell.injEq] at hj
      omega
  · rcases of_placing hx with hx | ⟨j, rfl, hj, rfl⟩
    · obtain ⟨a, ha, hv⟩ := h.holds x i hx
      refine ⟨a, by rw [Array.getElem?_append_left (h.lt_size hx), ha], ?_⟩
      rw [Store.cells_value_old]
      · exact hv
      · rintro k rfl
        have := h.known _ i hx
        omega
    · obtain ⟨i, a, hi, ha, hv⟩ := hnew j vs[j] (by simp [hj])
      refine ⟨a, by rw [hi, Array.getElem?_append_right (Nat.le_add_right _ _), Nat.add_sub_cancel_left,
        List.getElem?_toArray, ha], ?_⟩
      rwa [σ.cells_value_new (show (vs.map fun v (_ : Nat) => v)[j]? = some fun _ => vs[j] by simp [hj])]

/-- **Dropped variables.** What code does over a world leads on when the words on top are dropped. -/
theorem Opens.close (ho : Opens w w') (h : Agrees image globals w σ) (hl : Leads w' w'')
    (h' : Agrees image globals w'' σ') : Leads w (closed w w'') ∧ Agrees image globals (closed w w'') σ' := by
  have hplace : ∀ x i, w.place x = some i → w''.place x = some i := fun x i hx => by
    rw [hl.place]
    exact ho.place x i hx
  have hsize : w.words.size ≤ w''.words.size := by
    rw [hl.size]
    by_contra hlt
    have := ho.words w'.words.size (by omega)
    rw [Array.getElem?_eq_none le_rfl, eq_comm, Array.getElem?_eq_none_iff] at this
    omega
  have htake : ∀ i, i < w.words.size → (closed w w'').words[i]? = w''.words[i]? := fun i hi => by
    simp only [closed, Array.take_eq_extract]
    rw [Array.getElem?_extract, if_pos (by omega), Nat.zero_add]
  refine ⟨⟨rfl, rfl, by simpa [closed] using hsize, fun i hi => ?_⟩, fun x y i hx hy => ?_, fun k i hk => ?_, fun x i hx => ?_⟩
  · by_cases hlt : i < w.words.size
    · rw [htake i hlt, hl.kept i, ho.words i hlt]
      intro x hx
      rcases ho.place_new x i hx with hx | hge
      · exact hi x hx
      · omega
    · rw [Array.getElem?_eq_none (by simp [closed]; omega), Array.getElem?_eq_none (by omega)]
  · exact h'.apart x y i (hplace x i hx) (hplace y i hy)
  · exact h'.known k i (hplace _ i hk)
  · obtain ⟨a, ha, hv⟩ := h'.holds x i (hplace x i hx)
    exact ⟨a, by rw [htake i (h.lt_size hx), ha], hv⟩

/-- the words that are dropped -/
theorem mem_closed (w w'' : World) :
    framed w''.mem w.fp = (closed w w'').mem.pushes (w''.words.toList.drop w.words.size) := by
  rw [Memory.pushes_eq]
  simp only [framed, mem, closed, Memory.mk.injEq, and_true]
  refine Array.toList_inj.1 ?_
  rw [Array.toList_append, Array.take_eq_extract, Array.toList_extract, List.extract_eq_take_drop, List.drop_zero, Nat.sub_zero,
    List.take_append_drop]

end
end World

/-- the stack machine with its code in the image -/
abbrev setting (image : Image Op) (globals : List String) : Setting Registers where
  World := World
  mem := World.mem
  push := World.push
  Agrees w σ := w.Agrees image globals σ
  Leads := World.Leads
  mem_push _ _ := rfl
  agrees_push a h := h.push a
  leads_refl := World.Leads.refl
  leads_trans h h' := h.trans h'
  leads_push h hl h' := hl.of_push h h'

/-! ## Names and their places -/

/-- the binding finds the place of the variable -/
def Located (w : World) (b : Binding) (x : Variable) : Prop :=
  ∃ i : Nat, w.place x = some i ∧ (if b.storage = .global then 0 else w.fp) + b.address = wordSize * i

/-- the names of a scope and the globals find their places, and `depth` words lie over the frame pointer -/
structure Scoped (globals : List String) (w : World) (env : Env) (ρ : Scope) (depth : Int) : Prop where
  size : w.fp + wordSize * (depth + 1) = wordSize * w.words.size
  finds : Resolves (Located w) env ρ
  globals : ∀ x b, globalScope globals x = some b → Located w b (.global x)

/-- the names of an expression that stand for nothing in the scope are globals -/
def Outer (env : Env) (ρ : Scope) (e : Expr) : Prop := ∀ x ∈ e.uses, ρ x = none → env.variable x = .global x

section
variable {image : Image Op} {globals : List String} {w w' : World} {env : Env} {ρ : Scope} {depth : Int} {b : Binding}
  {x : Variable} {e part : Expr}

theorem Outer.child (h : Outer env ρ e) (hp : part ∈ e.children) (hb : e.binders = []) : Outer env ρ part :=
  fun x hx => h x (Expr.uses_child hp hx (by simp [hb]))

/-- new names stand for something -/
theorem Outer.extend {bindings : List Binding} {k : Nat} (h : Outer env ρ e) (hp : part ∈ e.children)
    (hb : e.binders = bindings.map Binding.name) :
    Outer (env.cells k (bindings.map Binding.name)) (ρ.extend bindings) part := by
  intro x hx hnone
  obtain ⟨hnew, hold⟩ := Scope.extend_eq_none hnone
  rw [Env.variable_cells_old hnew]
  exact h x (Expr.uses_child hp hx (by rwa [hb])) hold

theorem Located.leads (h : Located w b x) (hl : World.Leads w w') : Located w' b x := by
  obtain ⟨i, hi, ha⟩ := h
  exact ⟨i, by rw [hl.place, hi], by rw [hl.fp, ha]⟩

theorem Scoped.leads (h : Scoped globals w env ρ depth) (hl : World.Leads w w') : Scoped globals w' env ρ depth where
  size := by rw [hl.fp, hl.size, h.size]
  finds := h.finds.imp fun _ _ hb => hb.leads hl
  globals x b hb := (h.globals x b hb).leads hl

theorem Scoped.push (h : Scoped globals w env ρ depth) (a : Int) : Scoped globals (w.push a) env ρ (depth + 1) where
  size := by
    have := h.size
    simp only [World.push, Array.size_push]
    push_cast
    linarith
  finds := h.finds
  globals := h.globals

theorem Scoped.pushes (image : Image Op) (h : Scoped globals w env ρ depth) (as : List Int) :
    Scoped globals ((setting image globals).pushes w as) env ρ (depth + as.length) := by
  induction as generalizing w depth with
  | nil =>
    rw [List.length_nil, Nat.cast_zero, add_zero]
    exact h
  | cons a as ih =>
    have := ih (h.push a)
    rw [List.length_cons]
    push_cast
    rwa [add_assoc, add_comm (1 : Int)] at this

/-- what a name stands for -/
theorem Scoped.located {name : String} (h : Scoped globals w env ρ depth) (ho : Outer env ρ e) (hname : name ∈ e.uses)
    (hb : ρ.over (globalScope globals) name = some b) : Located w b (env.variable name) := by
  rw [Scope.over] at hb
  cases hρ : ρ name with
  | some b' =>
    rw [hρ, Option.some_or, Option.some.injEq] at hb
    exact hb ▸ h.finds name b' hρ
  | none =>
    rw [hρ, Option.none_or] at hb
    rw [ho name hname hρ]
    exact h.globals name b hb

/-- the address of a variable -/
theorem moves_push {pc : Nat} {m : Memory Registers} (h : image.instrs[pc]? = some (push b)) (hm : m.regs.fp = w.fp)
    (hb : Located w b x) :
    ∃ i, w.place x = some i ∧ image.Moves ⟨pc, m⟩ ⟨pc + 1, m.push (wordSize * i)⟩ := by
  obtain ⟨i, hi, ha⟩ := hb
  refine ⟨i, hi, ?_⟩
  rw [← ha, push] at *
  split at h
  · rename_i hs
    rw [if_pos hs, Int.zero_add]
    exact Image.moves_loadc h
  · rename_i hs
    rw [if_neg hs, ← hm]
    exact moves_loadrc h

end
end ThreeMachines.Stack
