/-
Operations that both machines with a heap have.

The lemmas go from a picture of the memory before the work of an operation to a picture of the memory after it. Which
registers the pictures fix is left to the machine.

- `leads_pushElement`, `leads_makeVector`, `leads_makeFunction`, `leads_copyOver`, `leads_slideWords`: one lemma for each.
-/
import ThreeMachines.Proofs.Native.Correspondence

namespace ThreeMachines.Native

open Layout

section
variable {ι ρ : Type} {R : Layout → ρ → (Reg → Word) → Prop} {L : Layout} {env : Surroundings} {malloc : Cpu → Cpu}
  {saved : Finset Nat} {image : Image ι} {m : Memory ρ} {s : State ρ} {pc k : Nat} {p : Picture}

/-- an element of the vector whose address a register holds -/
theorem leads_pushElement {r : Reg} {vector i : Int} (henv : Surrounds image pc env) (hp : Depicts R L saved m p)
    (hr : L.reg p r = word vector) (h : (Exec.element vector i >>= Exec.push) (m.at_ (pc + 1) k) = .ok () s)
    (hroom : Fits L s) : L.Leads env p (plain [.push (.mem ⟨r, wordSize * (i + 1)⟩)]) (Arrives R L saved s) := by
  obtain ⟨regs, flags, stack, heap, taken⟩ := p
  obtain ⟨q, w, hq, hw, h₁⟩ := Exec.load_bind h
  cases h₁
  refine leads_push (gives_mem (x := .cell q) (locate_cell hr hq) (hp.cell hw)) ?_ (leads_arrive henv (hp.push w))
  rw [hp.size_stack]
  exact hroom.slots_of_push

theorem leads_makeVector {n : Int} (hR : Respects R) (himport : env.imports "malloc" = some malloc)
    (hmalloc : Allocates L malloc) (henv : Surrounds image pc env) (hp : Depicts R L saved m p)
    (hfree : ∀ j ∈ saved, (j : Int) + n < m.words.size)
    (h : (Exec.makeVector n >>= Exec.push) (m.at_ (pc + 1) k) = .ok () s) (hroom : Fits L s) :
    L.Leads env p (plain (Snippet.mkvec n)) (Arrives R L saved s) := by
  obtain ⟨regs, flags, stack, heap, taken⟩ := p
  obtain ⟨v, t, hmake, h₁⟩ := bind_ok h
  obtain ⟨m', as, rfl, rfl, rfl, rfl⟩ := Exec.makeVector_ok hmake
  rw [Memory.pushes_heap] at h₁
  cases h₁
  have hlow : ∀ j ∈ saved, j < m'.words.size := by
    intro j hj
    have := hfree j hj
    rw [Memory.pushes_size] at this
    omega
  obtain ⟨stack, rfl, hp'⟩ := hp.pops hlow
  rw [← List.append_nil (plain _)]
  refine leads_mkvec himport hmalloc stack (as.map word) (by simp) hp'.taken_eq ?_ ?_ fun regs' flags' hkeeps => ?_
  · rw [hp'.size_heap]
    exact hroom.cells_of_append
  · rw [hp'.size_stack]
    exact hroom.slots_of_push
  · exact leads_arrive henv ((hp'.keeps hR hkeeps).pushBlock (as.length :: as))

theorem leads_makeFunction {body : Label} (hR : Respects R) (himport : env.imports "malloc" = some malloc)
    (hmalloc : Allocates L malloc) (henv : Surrounds image pc env) (hp : Depicts R L saved m p)
    (hfree : ∀ j ∈ saved, j + 1 ≠ m.words.size)
    (h : (Exec.makeFunction image body >>= Exec.push) (m.at_ (pc + 1) k) = .ok () s) (hroom : Fits L s) :
    L.Leads env p (plain (Snippet.mkfunval body)) (Arrives R L saved s) := by
  obtain ⟨regs, flags, stack, heap, taken⟩ := p
  obtain ⟨v, t, hmake, h₁⟩ := bind_ok h
  obtain ⟨m', vector, code, rfl, hbody, rfl, rfl⟩ := Exec.makeFunction_ok hmake
  cases h₁
  obtain ⟨stack, rfl, hp'⟩ := hp.pop fun hmem => hfree _ hmem (by simp)
  rw [← List.append_nil (plain _)]
  refine leads_mkfunval himport hmalloc (henv.labels body code hbody) hp'.taken_eq ?_ ?_ fun regs' flags' hkeeps => ?_
  · rw [hp'.size_heap]
    exact hroom.cells_of_append
  · rw [hp'.size_stack]
    exact hroom.slots_of_push
  · exact leads_arrive henv ((hp'.keeps hR hkeeps).pushBlock [Image.base + code, vector])

/-- the block at the popped address is copied over the one whose address lies `d` words under the top -/
theorem leads_copyOver {d i : Nat} {source dest : Int} (hR : Respects R) (henv : Surrounds image pc env)
    (hp : Depicts R L saved (m.push source) p) (htop : m.words.size ∉ saved) (hi : i ∉ saved)
    (hd : d + i + 1 = m.words.size) (hdest : m.words[i]? = some dest)
    (h : Exec.copyPair source dest (m.at_ (pc + 1) k) = .ok () s) :
    L.Leads env p (plain (Snippet.copyPair (Snippet.onStack (wordSize * d)))) (Arrives R L saved s) := by
  obtain ⟨regs, flags, stack, heap, taken⟩ := p
  obtain ⟨q, p, a, b, rfl, rfl, hsize, ha, hb, rfl⟩ := Exec.copyPair_ok h
  obtain ⟨stack, rfl, hp'⟩ := hp.pop htop
  have hplace : i + d + 1 = stack.size := by
    rw [hp'.size_stack]
    omega
  rw [← List.append_nil (plain _)]
  refine leads_copyPair (p := p) (a := word a) (b := word b) (fun regs => gives_mem (x := .slot i)
    (locate_onStack hplace) (hp'.slot hdest hi)) (hp'.cell ha) ((hp'.set p a).cell hb) ?_ fun regs' hkeeps => ?_
  · rw [hp'.size_heap]
    exact hsize
  · exact leads_arrive henv (((hp'.set p a).set (p + 1) b).keeps hR hkeeps)

theorem leads_slideWords {d : Nat} (hR : Respects R) (henv : Surrounds image pc env) (hp : Depicts R L saved m p)
    (hfree : ∀ j ∈ saved, j + d + 1 < m.words.size) (h : Exec.slide d (m.at_ (pc + 1) k) = .ok () s)
    (hroom : Fits L s) : L.Leads env p (plain (Snippet.slide d)) (Arrives R L saved s) := by
  obtain ⟨regs, flags, stack, heap, taken⟩ := p
  obtain ⟨m', as, w, rfl, rfl, rfl⟩ := Exec.slide_ok h
  have hlow : ∀ j ∈ saved, j < m'.words.size := by
    intro j hj
    have := hfree j hj
    simp only [Memory.push_words, Array.size_push, Memory.pushes_size] at this
    omega
  obtain ⟨stack, rfl, hp₁⟩ := hp.pop fun hmem => absurd (hlow _ hmem) (by simp [Memory.pushes_size])
  obtain ⟨stack, rfl, hp₂⟩ := hp₁.pops hlow
  rw [← List.append_nil (plain _)]
  refine leads_slide stack (as.map word) _ ?_ (by simp) fun regs' flags' hkeeps => ?_
  · rw [hp₂.size_stack]
    exact hroom.slots_of_push
  · exact leads_arrive henv ((hp₂.keeps hR hkeeps).push w)

end

end ThreeMachines.Native
