/-
Chains of scopes.

`ScopeTable.frame?` is the frame with a number, and `ScopeTable.Outward` leads from a scope by its parents to a scope
without one. Where every parent is older than its child (`ScopeTable.Grown`), each scope of the table has one such way
outward, it meets no scope twice, and the operations of the table go along it:

- `chain_map_fst`: `ScopeTable.chain` lists the scopes of the way;
- `getLast?_of_outward`: `ScopeTable.root` is its last scope;
- `slot?_eq_some_iff`, `slot?_eq_none_iff`: a name stands for what the nearest frame on the way that has it says.
-/
import ThreeMachines.Proofs.Generation

namespace ThreeMachines.ScopeTable

/-- the frame with the number of a scope -/
def frame? (t : ScopeTable) (s : ScopeId) : Option Frame := t.frames.reverse[s.index]?

/-- what the frame of a scope says of a name -/
def held? (t : ScopeTable) (s : ScopeId) (name : String) : Option Slot :=
  (t.frame? s).bind fun frame => frame.slots.lookup name

/-- the way from a scope to its parent, and so on, to a scope that has no parent -/
inductive Outward (t : ScopeTable) : ScopeId → List ScopeId → Prop where
  | last {s : ScopeId} {frame : Frame} (hframe : t.frame? s = some frame) (hparent : frame.parent = none) :
    Outward t s [s]
  | step {s parent : ScopeId} {frame : Frame} {path : List ScopeId} (hframe : t.frame? s = some frame)
    (hparent : frame.parent = some parent) (later : Outward t parent path) : Outward t s (s :: path)

/-- along the way, the first frame that has the name has it in this state -/
def Nearest (t : ScopeTable) (path : List ScopeId) (name : String) (slot : Slot) : Prop :=
  ∃ inner s outer, path = inner ++ s :: outer ∧ (∀ i ∈ inner, t.held? i name = none) ∧ t.held? s name = some slot

/-- there is a global scope, and parents are older than their children -/
structure Grown (t : ScopeTable) : Prop where
  nonempty : 0 < t.frames.length
  older : ∀ {s frame parent}, t.frame? s = some frame → frame.parent = some parent → parent.index < s.index

variable {t : ScopeTable} {s : ScopeId} {frame : Frame} {path : List ScopeId} {name : String} {slot : Slot}

theorem index_lt_of_frame? (h : t.frame? s = some frame) : s.index < t.frames.length := by
  simpa using (List.getElem?_eq_some_iff.1 h).1

theorem exists_frame? (h : s.index < t.frames.length) : ∃ frame, t.frame? s = some frame :=
  ⟨_, List.getElem?_eq_getElem (by simpa using h)⟩

/-- the frames from the newest to the one with a number, and the older ones -/
theorem frames_eq_of_frame? (h : t.frame? s = some frame) :
    ∃ newer older, t.frames = newer ++ frame :: older ∧ older.length = s.index := by
  obtain ⟨hs, hframe⟩ := List.getElem?_eq_some_iff.1 h
  refine ⟨(t.frames.reverse.drop (s.index + 1)).reverse, (t.frames.reverse.take s.index).reverse, ?_, ?_⟩
  · rw [← List.reverse_inj]
    simp only [List.reverse_append, List.reverse_cons, List.reverse_reverse, List.append_assoc, List.singleton_append]
    rw [← hframe, List.cons_getElem_drop_succ, List.take_append_drop]
  · simp only [List.length_reverse, List.length_take] at hs ⊢
    omega

/-- what a scope holds is in its place of the list of frames -/
theorem ownSlot?_eq (h : s.index < t.frames.length) : t.ownSlot? s name = t.held? s name := by
  rw [ownSlot?, held?, frame?, place, List.getElem?_reverse h]

/-! ## The way outward -/

theorem exists_outward {s : ScopeId} (ht : t.Grown) (hs : s.index < t.frames.length) :
    ∃ path, t.Outward s path ∧ path.Pairwise (fun i j => j.index < i.index) ∧ ∀ i ∈ path, i.index ≤ s.index := by
  obtain ⟨frame, hframe⟩ := exists_frame? hs
  cases hparent : frame.parent with
  | none => exact ⟨[s], .last hframe hparent, List.pairwise_singleton _ _, by simp⟩
  | some parent =>
    have holder := ht.older hframe hparent
    obtain ⟨path, hpath, hordered, hle⟩ := exists_outward ht (holder.trans hs)
    refine ⟨s :: path, .step hframe hparent hpath, List.pairwise_cons.2 ⟨fun i hi => ?_, hordered⟩,
      List.forall_mem_cons.2 ⟨le_rfl, fun i hi => ?_⟩⟩
    · exact (hle i hi).trans_lt holder
    · exact (hle i hi).trans holder.le
termination_by s.index

/-- there is no other way -/
theorem Outward.unique {path' : List ScopeId} (h : t.Outward s path) (h' : t.Outward s path') : path = path' := by
  induction h generalizing path' with
  | last hframe hparent =>
    cases h' with
    | last => rfl
    | step hframe' hparent' =>
      cases hframe.symm.trans hframe'
      cases hparent.symm.trans hparent'
  | step hframe hparent _ ih =>
    cases h' with
    | last hframe' hparent' =>
      cases hframe.symm.trans hframe'
      cases hparent.symm.trans hparent'
    | step hframe' hparent' later' =>
      cases hframe.symm.trans hframe'
      cases hparent.symm.trans hparent'
      rw [ih later']

theorem Outward.index_lt (h : t.Outward s path) : ∀ i ∈ path, i.index < t.frames.length := by
  induction h with
  | last hframe => simpa using index_lt_of_frame? hframe
  | step hframe _ _ ih => exact List.forall_mem_cons.2 ⟨index_lt_of_frame? hframe, ih⟩

/-! ## The operations go along it -/

theorem chain_cons (ht : t.Grown) (hframe : t.frame? s = some frame) :
    t.chain s = (s, frame) :: (match frame.parent with
      | some parent => t.chain parent
      | none => []) := by
  obtain ⟨newer, older, hframes, hlength⟩ := frames_eq_of_frame? hframe
  have hown : t.chain s = chainIn (frame :: older) (older.length + 1) s := by
    rw [chain, hframes, List.length_append, chainIn_append newer _ (by simp [hlength]), List.length_cons]
  rw [hown, chainIn, if_pos (by rw [hlength]), Nat.add_sub_cancel]
  cases hparent : frame.parent with
  | none => rfl
  | some parent =>
    have holder := ht.older hframe hparent
    simp only
    rw [chain, hframes, List.append_cons, List.length_append, chainIn_append _ older (hlength ▸ holder)]

/-- the frames that the operations look at are those of the way outward -/
theorem chain_map_fst (ht : t.Grown) (h : t.Outward s path) : (t.chain s).map Prod.fst = path := by
  induction h with
  | last hframe hparent => simp [chain_cons ht hframe, hparent]
  | step hframe hparent _ ih => simp [chain_cons ht hframe, hparent, ih]

/-- the root of a scope is where its way ends -/
theorem getLast?_of_outward (ht : t.Grown) (h : t.Outward s path) : path.getLast? = some (t.root s) := by
  rw [root, ← chain_map_fst ht h, List.getLast?_map]
  cases hlast : (t.chain s).getLast? with
  | some entry => rfl
  | none =>
    rw [List.getLast?_eq_none_iff] at hlast
    have hmap := chain_map_fst ht h
    rw [hlast] at hmap
    cases h <;> cases hmap

theorem slot?_eq_findSome? (ht : t.Grown) (h : t.Outward s path) :
    t.slot? s name = path.findSome? fun i => t.held? i name := by
  induction h with
  | last hframe hparent => simp [slot?, chain_cons ht hframe, hparent, held?, hframe]
  | step hframe hparent _ ih =>
    rw [slot?] at ih ⊢
    simp only [chain_cons ht hframe, hparent, List.findSome?_cons, ih, held?, hframe, Option.bind_some]

theorem slot?_eq_some_iff (ht : t.Grown) (h : t.Outward s path) :
    t.slot? s name = some slot ↔ t.Nearest path name slot := by
  rw [slot?_eq_findSome? ht h, List.findSome?_eq_some_iff]
  constructor
  · rintro ⟨inner, i, outer, rfl, hheld, hinner⟩
    exact ⟨inner, i, outer, rfl, hinner, hheld⟩
  · rintro ⟨inner, i, outer, rfl, hinner, hheld⟩
    exact ⟨inner, i, outer, rfl, hheld, hinner⟩

theorem slot?_eq_none_iff (ht : t.Grown) (h : t.Outward s path) :
    t.slot? s name = none ↔ ∀ i ∈ path, t.held? i name = none := by
  rw [slot?_eq_findSome? ht h, List.findSome?_eq_none_iff]

end ThreeMachines.ScopeTable
