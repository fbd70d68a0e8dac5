/-
What opening a scope and fixing an address do to a table.

A new scope is added and nothing else changes (`held?_push`); an address is fixed in one frame, for one name
(`held?_bind`). Neither takes a binding away, so whatever is bound stays bound (`Keeps`).
-/
import ThreeMachines.Proofs.Scopes.Chains

namespace ThreeMachines.ScopeTable

/-- the later table has all scopes of the earlier one, with the same parents, and all their bindings -/
structure Keeps (t t' : ScopeTable) : Prop where
  length : t.frames.length ≤ t'.frames.length
  parents : ∀ {s frame}, t.frame? s = some frame → ∃ frame', t'.frame? s = some frame' ∧ frame'.parent = frame.parent
  bound : ∀ {s name b}, t.held? s name = some (.bound b) → t'.held? s name = some (.bound b)

theorem Keeps.refl (t : ScopeTable) : t.Keeps t := ⟨le_rfl, fun h => ⟨_, h, rfl⟩, id⟩

theorem Keeps.trans {t t' t'' : ScopeTable} (h : t.Keeps t') (h' : t'.Keeps t'') : t.Keeps t'' := by
  refine ⟨h.length.trans h'.length, fun hframe => ?_, fun hb => h'.bound (h.bound hb)⟩
  obtain ⟨frame', hframe', hparent⟩ := h.parents hframe
  obtain ⟨frame'', hframe'', hparent'⟩ := h'.parents hframe'
  exact ⟨frame'', hframe'', hparent'.trans hparent⟩

variable {t t' : ScopeTable} {s i : ScopeId} {frame : Frame} {parent : Option ScopeId} {names : List String} {name : String}
  {b : Binding}

/-! ## A new scope -/

section
variable {f : Frame}

theorem frame?_cons (hi : i.index < t.frames.length) : frame? ⟨f :: t.frames⟩ i = t.frame? i := by
  simp only [frame?, List.reverse_cons]
  exact List.getElem?_append_left (by simpa using hi)

theorem frame?_cons_new : frame? ⟨f :: t.frames⟩ ⟨t.frames.length⟩ = some f := by simp [frame?]

theorem held?_cons (hi : i.index < t.frames.length) : held? ⟨f :: t.frames⟩ i name = t.held? i name := by
  rw [held?, held?, frame?_cons hi]

/-- a scope is an old one or the new one -/
theorem old_or_new_of_frame?_cons (h : frame? ⟨f :: t.frames⟩ i = some frame) :
    i.index < t.frames.length ∨ i = ⟨t.frames.length⟩ ∧ frame = f := by
  rcases Nat.lt_succ_iff_lt_or_eq.1 (show i.index < t.frames.length + 1 from index_lt_of_frame? h) with hi | hi
  · exact .inl hi
  · obtain rfl : i = ⟨t.frames.length⟩ := congrArg ScopeId.mk hi
    exact .inr ⟨rfl, (Option.some.inj (frame?_cons_new.symm.trans h)).symm⟩

theorem Grown.cons (ht : t.Grown) (hparent : ∀ p, f.parent = some p → p.index < t.frames.length) :
    Grown ⟨f :: t.frames⟩ where
  nonempty := Nat.succ_pos _
  older {s frame p} hframe hp := by
    rcases old_or_new_of_frame?_cons hframe with hs | ⟨rfl, rfl⟩
    · exact ht.older ((frame?_cons hs).symm.trans hframe) hp
    · exact hparent p hp

end

theorem frame?_push (hi : i.index < t.frames.length) : (t.push parent names).2.frame? i = t.frame? i := frame?_cons hi

theorem frame?_push_new :
    (t.push parent names).2.frame? (t.push parent names).1 = some ⟨parent, names.map fun name => (name, .declared)⟩ :=
  frame?_cons_new

theorem held?_push (hi : i.index < t.frames.length) : (t.push parent names).2.held? i name = t.held? i name :=
  held?_cons hi

theorem keeps_push : t.Keeps (t.push parent names).2 where
  length := by simp [push]
  parents hframe := ⟨_, (frame?_push (index_lt_of_frame? hframe)).trans hframe, rfl⟩
  bound {s name b} hb := by
    obtain ⟨frame, hframe, -⟩ := Option.bind_eq_some_iff.1 hb
    rwa [held?_push (index_lt_of_frame? hframe)]

theorem Grown.push (ht : t.Grown) (names : List String) (hparent : ∀ p, parent = some p → p.index < t.frames.length) :
    (t.push parent names).2.Grown :=
  ht.cons hparent

/-! ## A fixed address -/

theorem bind_eq (hs : s.index < t.frames.length) : t.bind s b =
    match t.held? s b.name with
    | some (.bound existing) => .error (.internal (.alreadyBound b.name existing))
    | _ => .ok ⟨t.frames.modify (t.place s) fun frame => { frame with slots := (b.name, .bound b) :: frame.slots }⟩ := by
  rw [← ownSlot?_eq hs]
  rfl

/-- an address can be fixed for a name that has none in the frame -/
theorem exists_bind (b : Binding) (hs : s.index < t.frames.length) (hfree : ∀ b', t.held? s b.name ≠ some (.bound b')) :
    ∃ t', t.bind s b = .ok t' := by
  rw [bind_eq hs]
  split
  · rename_i existing hexisting
    exact absurd hexisting (hfree existing)
  · exact ⟨_, rfl⟩

theorem frame?_bind (hs : s.index < t.frames.length) (h : t.bind s b = .ok t') (i : ScopeId) : t'.frame? i =
    if i = s then (t.frame? i).map fun frame => { frame with slots := (b.name, .bound b) :: frame.slots }
    else t.frame? i := by
  rw [bind_eq hs] at h
  split at h
  · cases h
  cases h
  by_cases hi : i.index < t.frames.length
  · have hplace : (t.place s = t.frames.length - 1 - i.index) = (i = s) := by
      rw [place, eq_iff_iff]
      constructor
      · intro hplace
        cases i
        cases s
        exact congrArg ScopeId.mk (by simp only at *; omega)
      · rintro rfl
        rfl
    rw [frame?, frame?, List.getElem?_reverse (by simpa using hi), List.getElem?_reverse hi, List.length_modify,
      List.getElem?_modify]
    simp only [hplace]
    split <;> simp
  · have hnew : frame? ⟨t.frames.modify (t.place s) fun frame => { frame with slots := (b.name, .bound b) :: frame.slots }⟩ i
        = none := List.getElem?_eq_none (by simpa using hi)
    have hold : t.frame? i = none := List.getElem?_eq_none (by simpa using hi)
    simp [hnew, hold]

theorem held?_bind (hs : s.index < t.frames.length) (h : t.bind s b = .ok t') (i : ScopeId) (name : String) :
    t'.held? i name = if i = s ∧ name = b.name then some (.bound b) else t.held? i name := by
  rw [held?, held?, frame?_bind hs h]
  by_cases hi : i = s
  · subst hi
    obtain ⟨frame, hframe⟩ := exists_frame? hs
    by_cases hname : name = b.name
    · simp [hframe, hname]
    · simp [hframe, hname, List.lookup_cons, beq_false_of_ne hname]
  · simp [hi]

theorem length_bind (hs : s.index < t.frames.length) (h : t.bind s b = .ok t') : t'.frames.length = t.frames.length := by
  rw [bind_eq hs] at h
  split at h <;> cases h
  exact List.length_modify ..

theorem keeps_bind (hs : s.index < t.frames.length) (h : t.bind s b = .ok t') : t.Keeps t' where
  length := (length_bind hs h).ge
  parents {i frame} hframe := by
    rw [frame?_bind hs h]
    split
    · simp [hframe]
    · exact ⟨frame, hframe, rfl⟩
  bound {i name existing} hb := by
    rw [held?_bind hs h]
    split
    · -- the name has an address in the frame already, so it could not have been fixed
      rename_i hsame
      obtain ⟨rfl, rfl⟩ := hsame
      rw [bind_eq hs, hb] at h
      cases h
    · exact hb

theorem Grown.bind (ht : t.Grown) (hs : s.index < t.frames.length) (h : t.bind s b = .ok t') : t'.Grown where
  nonempty := (length_bind hs h).symm ▸ ht.nonempty
  older {i frame parent} hframe hparent := by
    rw [frame?_bind hs h] at hframe
    split at hframe
    · obtain ⟨old, hold, rfl⟩ := Option.map_eq_some_iff.1 hframe
      exact ht.older hold hparent
    · exact ht.older hframe hparent

/-- the way outward does not depend on bindings -/
theorem Keeps.outward (h : t.Keeps t') {path : List ScopeId} (hpath : t.Outward s path) : t'.Outward s path := by
  induction hpath with
  | last hframe hparent =>
    obtain ⟨frame', hframe', hsame⟩ := h.parents hframe
    exact .last hframe' (hsame.trans hparent)
  | step hframe hparent _ ih =>
    obtain ⟨frame', hframe', hsame⟩ := h.parents hframe
    exact .step hframe' (hsame.trans hparent) ih

end ThreeMachines.ScopeTable
