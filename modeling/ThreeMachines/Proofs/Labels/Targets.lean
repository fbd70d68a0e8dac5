/-
What labels name in an image.

- `Marks p l pc`: the label `l` is written at `pc` in the image of `p`, as a label instruction or over a body.
- `marks_of_target`: a label that names a place is written there, whatever the program.
- `target_eq_ok_iff`: where labels have been checked, they name the one place where they are written.
- `le_stop_of_target`: the place lies in the image, or at its end where the last body and the entry stream are empty.
-/
import ThreeMachines.Proofs.Placement

namespace ThreeMachines

variable {ι : Type} {p : Program ι} {l : Label} {pc : Nat}

/-- `pc` is the place of a label instruction of `l`, or the first place of a body whose label is `l` -/
def Marks (p : Program ι) (l : Label) (pc : Nat) : Prop :=
  (Image.ofProgram p).instrs[pc]? = some (.label l) ∨
  ∃ before body after, p.lambdas.bodies = before ++ body :: after ∧ body.label = l ∧
    pc = (before.flatMap LambdaBody.code).length

namespace Image

theorem exists_of_mem_labelPlaces {first : Nat} {code : Code ι} (h : (l, pc) ∈ labelPlaces first code) :
    ∃ i, pc = first + i ∧ code[i]? = some (.label l) := by
  induction code generalizing first with
  | nil => simp [labelPlaces] at h
  | cons instr code ih =>
    have later (h : (l, pc) ∈ labelPlaces (first + 1) code) :
        ∃ i, pc = first + i ∧ (instr :: code)[i]? = some (.label l) := by
      obtain ⟨i, rfl, hi⟩ := ih h
      exact ⟨i + 1, by omega, by simpa using hi⟩
    rw [labelPlaces] at h
    split at h
    · next l' hl' =>
      rcases List.mem_cons.1 h with he | h
      · cases he
        refine ⟨0, rfl, ?_⟩
        cases instr <;> simp [Instr.defines] at hl' ⊢
        exact hl'
      · exact later h
    · exact later h

theorem exists_of_mem_bodyPlaces {first : Nat} {bodies : List (LambdaBody ι)} (h : (l, pc) ∈ bodyPlaces first bodies) :
    ∃ before body after, bodies = before ++ body :: after ∧ body.label = l ∧
      pc = first + (before.flatMap LambdaBody.code).length := by
  induction bodies generalizing first with
  | nil => simp [bodyPlaces] at h
  | cons body bodies ih =>
    rcases List.mem_cons.1 h with he | h
    · cases he
      exact ⟨[], body, bodies, rfl, rfl, rfl⟩
    · obtain ⟨before, other, after, rfl, rfl, rfl⟩ := ih h
      refine ⟨body :: before, other, after, rfl, rfl, ?_⟩
      rw [List.flatMap_cons, List.length_append, Nat.add_assoc]

/-- a label that names a place is written there -/
theorem marks_of_target (h : (ofProgram p).target l = .ok pc) : Marks p l pc := by
  have hm : (l, pc) ∈ (ofProgram p).labels := by
    rw [target] at h
    split at h
    · next hlookup =>
      cases h
      obtain ⟨before, after, hsplit, -⟩ := List.lookup_eq_some_iff.1 hlookup
      simp [hsplit]
    · cases h
  simp only [ofProgram, List.mem_reverse, List.mem_append] at hm
  rcases hm with hm | hm
  · obtain ⟨before, body, after, hsplit, hl, hpc⟩ := exists_of_mem_bodyPlaces hm
    exact .inr ⟨before, body, after, hsplit, hl, by rw [hpc, Nat.zero_add]⟩
  · obtain ⟨i, rfl, hi⟩ := exists_of_mem_labelPlaces hm
    refine .inl ?_
    rw [Nat.zero_add, instrs_ofProgram]
    simpa using hi

theorem entry_le_stop (p : Program ι) : (ofProgram p).entry ≤ (ofProgram p).stop := by
  rw [stop_ofProgram]
  exact Nat.le_add_right _ _

/-- a label names no place behind the end of the code -/
theorem le_stop_of_target (h : (ofProgram p).target l = .ok pc) : pc ≤ (ofProgram p).stop := by
  rcases marks_of_target h with hlabel | ⟨before, body, after, hsplit, -, rfl⟩
  · exact (Array.getElem?_eq_some_iff.1 hlabel).1.le
  · refine le_trans ?_ (entry_le_stop p)
    rw [entry_ofProgram, hsplit, List.flatMap_append, List.length_append]
    exact Nat.le_add_right _ _

/-- a label that is defined is written somewhere -/
theorem exists_marks (h : l ∈ p.definitions) : ∃ pc, Marks p l pc := by
  rcases List.mem_append.1 h with hlabel | hbody
  · obtain ⟨instr, hinstr, hl⟩ := List.mem_filterMap.1 hlabel
    obtain rfl : instr = .label l := by cases instr <;> simp_all [Instr.defines]
    have hmem : Instr.label l ∈ (ofProgram p).instrs := by
      rw [instrs_ofProgram, List.mem_toArray]
      exact (List.perm_append_comm.mem_iff).1 hinstr
    obtain ⟨pc, hpc⟩ := Array.mem_iff_getElem?.1 hmem
    exact ⟨pc, .inl hpc⟩
  · obtain ⟨body, hmem, rfl⟩ := List.mem_map.1 hbody
    obtain ⟨before, after, hsplit⟩ := List.append_of_mem hmem
    exact ⟨_, .inr ⟨before, body, after, hsplit, rfl, rfl⟩⟩

variable [Operation ι]

/-- where labels have been checked, a label names the place where it is written -/
theorem target_eq_ok_iff (h : p.checkLabels = .ok ()) : (ofProgram p).target l = .ok pc ↔ Marks p l pc := by
  refine ⟨marks_of_target, ?_⟩
  rintro (hlabel | ⟨before, body, after, hsplit, rfl, rfl⟩)
  · exact wellLabelled_of_checkLabels h pc l hlabel
  · exact target_body h hsplit

/-- where labels have been checked, an instruction of the image names defined labels only -/
theorem mem_definitions_of_references (h : p.checkLabels = .ok ()) {instr : Instr ι}
    (hinstr : (ofProgram p).instrs[pc]? = some instr) (hl : instr.references = some l) : l ∈ p.definitions := by
  have hmem : l ∈ p.instructions.filterMap Instr.references := by
    refine List.mem_filterMap.2 ⟨instr, ?_, hl⟩
    have := Array.mem_of_getElem? hinstr
    rw [instrs_ofProgram, List.mem_toArray] at this
    exact (List.perm_append_comm.mem_iff).1 this
  rw [Program.checkLabels] at h
  split at h
  · cases h
  · split at h
    · cases h
    · next hfind =>
      rw [List.find?_eq_none] at hfind
      simpa using hfind l hmem

end Image
end ThreeMachines
