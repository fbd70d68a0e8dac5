/-
Where code lies in an image, and what labels name.

- `Placed image pc c`: the instructions `c` lie in the image from `pc` on.
- `Image.WellLabelled`: every label names the place where its label instruction lies. `wellLabelled_of_checkLabels`:
  so it is in the image of every program whose labels have been checked.
- `target_body`: in such an image the label of a function body names the place where the body's code begins.
-/
import Mathlib.Tactic
import ThreeMachines.Run.Image

namespace ThreeMachines

variable {ι : Type}

/-- the instructions lie in the image from `pc` on -/
def Placed (image : Image ι) : Nat → Code ι → Prop
  | _, [] => True
  | pc, i :: c => image.instrs[pc]? = some i ∧ Placed image (pc + 1) c

@[simp] theorem placed_nil (image : Image ι) (pc : Nat) : Placed image pc [] := trivial

@[simp] theorem placed_cons (image : Image ι) (pc : Nat) (i : Instr ι) (c : Code ι) :
    Placed image pc (i :: c) ↔ image.instrs[pc]? = some i ∧ Placed image (pc + 1) c := Iff.rfl

@[simp] theorem placed_append (image : Image ι) (pc : Nat) (c d : Code ι) :
    Placed image pc (c ++ d) ↔ Placed image pc c ∧ Placed image (pc + c.length) d := by
  induction c generalizing pc with
  | nil => simp
  | cons i c ih =>
    simp only [List.cons_append, placed_cons, ih, List.length_cons, and_assoc]
    rw [show pc + 1 + c.length = pc + (c.length + 1) by omega]

theorem lt_size_of_placed {image : Image ι} {pc : Nat} {i : Instr ι} {c : Code ι} (h : Placed image pc (c ++ [i])) :
    pc < image.instrs.size := by
  rw [placed_append, placed_cons] at h
  exact (Nat.le_add_right pc c.length).trans_lt (Array.getElem?_eq_some_iff.1 h.2.1).1

theorem placed_of_instrs {image : Image ι} {c : Code ι} (before after : Code ι)
    (h : image.instrs = (before ++ c ++ after).toArray) : Placed image before.length c := by
  induction c generalizing before with
  | nil => exact trivial
  | cons i c ih =>
    refine ⟨by simp [h], ?_⟩
    have := ih (before ++ [i]) (by simpa using h)
    simpa using this

namespace Image

/-- every label names the place of its label instruction -/
def WellLabelled (image : Image ι) : Prop :=
  ∀ pc l, image.instrs[pc]? = some (.label l) → image.target l = .ok pc

theorem instrs_ofProgram (p : Program ι) :
    (ofProgram p).instrs = (p.lambdas.bodies.flatMap LambdaBody.code ++ p.code).toArray := rfl

theorem entry_ofProgram (p : Program ι) :
    (ofProgram p).entry = (p.lambdas.bodies.flatMap LambdaBody.code).length := rfl

theorem placed_entry (p : Program ι) : Placed (ofProgram p) (ofProgram p).entry p.code :=
  placed_of_instrs _ [] (by rw [List.append_nil]; exact instrs_ofProgram p)

theorem stop_ofProgram (p : Program ι) : (ofProgram p).stop = (ofProgram p).entry + p.code.length := by
  rw [stop, instrs_ofProgram, entry_ofProgram]
  simp

/-! ## Labels with one definition each -/

theorem lookup_of_mem {κ α : Type} [BEq κ] [LawfulBEq κ] {l : List (κ × α)} (h : (l.map Prod.fst).Nodup) {k : κ}
    {v : α} (hm : (k, v) ∈ l) : l.lookup k = some v := by
  induction l with
  | nil => simp at hm
  | cons e l ih =>
    rw [List.map_cons, List.nodup_cons] at h
    rcases List.mem_cons.1 hm with rfl | hm
    · simp
    · have hne : (k == e.1) = false := by
        rw [beq_eq_false_iff_ne]
        rintro rfl
        exact h.1 (List.mem_map.2 ⟨(e.1, v), hm, rfl⟩)
      rw [List.lookup_cons, hne]
      exact ih h.2 hm

theorem map_fst_bodyPlaces (pc : Nat) (bodies : List (LambdaBody ι)) :
    (bodyPlaces pc bodies).map Prod.fst = bodies.map LambdaBody.label := by
  induction bodies generalizing pc with
  | nil => rfl
  | cons body bodies ih => simp [bodyPlaces, ih]

theorem map_fst_labelPlaces (pc : Nat) (c : Code ι) :
    (labelPlaces pc c).map Prod.fst = c.filterMap Instr.defines := by
  induction c generalizing pc with
  | nil => rfl
  | cons i c ih =>
    rw [labelPlaces, List.filterMap_cons]
    cases i.defines with
    | none => exact ih _
    | some l => simp [ih]

theorem mem_labelPlaces (pc : Nat) {i : Nat} {code : Code ι} {l : Label} (h : code[i]? = some (.label l)) :
    (l, pc + i) ∈ labelPlaces pc code := by
  induction code generalizing pc i with
  | nil => simp at h
  | cons instr code ih =>
    cases i with
    | zero =>
      rw [List.getElem?_cons_zero, Option.some.injEq] at h
      subst h
      simp [labelPlaces, Instr.defines]
    | succ i =>
      have hm := ih (pc + 1) (by simpa using h)
      rw [show pc + 1 + i = pc + (i + 1) by omega] at hm
      rw [labelPlaces]
      cases instr.defines with
      | none => exact hm
      | some _ => exact List.mem_cons_of_mem _ hm

theorem mem_bodyPlaces (pc : Nat) (before after : List (LambdaBody ι)) (body : LambdaBody ι) :
    (body.label, pc + (before.flatMap LambdaBody.code).length) ∈ bodyPlaces pc (before ++ body :: after) := by
  induction before generalizing pc with
  | nil => simp [bodyPlaces]
  | cons other before ih =>
    rw [List.flatMap_cons, List.length_append, ← Nat.add_assoc]
    exact List.mem_cons_of_mem _ (ih _)

variable [Operation ι] {p : Program ι}

theorem nodup_definitions (h : p.checkLabels = .ok ()) : p.definitions.Nodup := by
  rw [List.nodup_iff_count_le_one]
  intro l
  by_cases hl : l ∈ p.definitions
  · by_contra hc
    rw [Program.checkLabels] at h
    cases hf : p.definitions.find? (fun l => 1 < p.definitions.count l) with
    | none =>
      rw [List.find?_eq_none] at hf
      exact hf l hl (by simpa using hc)
    | some l' => simp [hf] at h
  · rw [List.count_eq_zero_of_not_mem hl]
    exact Nat.zero_le 1

theorem nodup_labels (h : p.checkLabels = .ok ()) : ((ofProgram p).labels.map Prod.fst).Nodup := by
  have hd := nodup_definitions h
  rw [ofProgram]
  simp only [List.map_reverse, List.map_append, map_fst_bodyPlaces, map_fst_labelPlaces, List.nodup_reverse]
  refine (List.Perm.nodup_iff ?_).1 hd
  rw [Program.definitions, Program.instructions, List.filterMap_append, List.filterMap_append]
  exact List.perm_append_comm.trans (List.Perm.append_left _ List.perm_append_comm)

theorem target_of_mem (h : p.checkLabels = .ok ()) {l : Label} {pc : Nat} (hm : (l, pc) ∈ (ofProgram p).labels) :
    (ofProgram p).target l = .ok pc := by
  rw [target, lookup_of_mem (nodup_labels h) hm]

/-- **Labels.** In the image of a program with checked labels every label names its own place. -/
theorem wellLabelled_of_checkLabels (h : p.checkLabels = .ok ()) : (ofProgram p).WellLabelled := by
  intro pc l hl
  refine target_of_mem h ?_
  have hc : (p.lambdas.bodies.flatMap LambdaBody.code ++ p.code)[pc]? = some (.label l) := by
    simpa [instrs_ofProgram] using hl
  have hm := mem_labelPlaces 0 hc
  rw [Nat.zero_add] at hm
  simp only [ofProgram, List.mem_reverse, List.mem_append]
  exact .inr hm

/-- **Bodies.** The code of a body begins, at its label, after the code of the bodies before it. -/
theorem target_body (h : p.checkLabels = .ok ()) {before after : List (LambdaBody ι)} {body : LambdaBody ι}
    (hb : p.lambdas.bodies = before ++ body :: after) :
    (ofProgram p).target body.label = .ok (before.flatMap LambdaBody.code).length := by
  refine target_of_mem h ?_
  have hm := mem_bodyPlaces 0 before after body
  rw [Nat.zero_add, ← hb] at hm
  simp only [ofProgram, List.mem_reverse, List.mem_append]
  exact .inl hm

/-- different bodies have different labels -/
theorem body_injective (h : p.checkLabels = .ok ()) {body other : LambdaBody ι} (hb : body ∈ p.lambdas.bodies)
    (ho : other ∈ p.lambdas.bodies) (hl : body.label = other.label) : body = other :=
  List.inj_on_of_nodup_map (List.nodup_append.1 (nodup_definitions h)).2.1 hb ho hl

/-- the labels of function bodies name the places of their code -/
def Holds (image : Image ι) (bodies : List (LambdaBody ι)) : Prop :=
  ∀ body ∈ bodies, ∃ pc, image.target body.label = .ok pc ∧ Placed image pc body.code

theorem holds_ofProgram (h : p.checkLabels = .ok ()) : (ofProgram p).Holds p.lambdas.bodies := by
  intro body hb
  obtain ⟨before, after, hsplit⟩ := List.append_of_mem hb
  refine ⟨_, target_body h hsplit, placed_of_instrs _ (after.flatMap LambdaBody.code ++ p.code) ?_⟩
  rw [instrs_ofProgram, hsplit]
  simp

end Image
end ThreeMachines
