/-
Tables in which every name has its address.

While a generator works, no name of a scope waits for its address: a scope is opened with the addresses of all its names
(`Settled.cons`), and what is added later comes with an address (`Settled.bind`). So looking a name up fails only if nothing
has the name (`Settled.lookup`), and an assignment always finds or makes its target (`Settled.resolveOrAllocate`).

`K` says which kinds of storage there may be.
-/
import ThreeMachines.Proofs.Scopes.Changes

namespace ThreeMachines.ScopeTable

/-- every name has an address, in storage of a kind that there may be -/
structure Settled (K : Storage → Prop) (t : ScopeTable) : Prop where
  grown : t.Grown
  bound : ∀ {s name slot}, t.held? s name = some slot → ∃ b, slot = .bound b ∧ K b.storage

variable {K : Storage → Prop} {t t' : ScopeTable} {s : ScopeId} {name : String} {b : Binding}

theorem settled_empty : empty.Settled K where
  grown := ⟨Nat.one_pos, fun {s frame parent} hframe hparent => by
    obtain ⟨⟨_ | n⟩⟩ := s
    · cases hframe
      cases hparent
    · cases hframe⟩
  bound {s name slot} h := by
    obtain ⟨⟨_ | n⟩⟩ := s <;> cases h

namespace Settled

/-- whatever a name stands for has an address -/
theorem slot (h : t.Settled K) (hs : s.index < t.frames.length) {slot : Slot} (hslot : t.slot? s name = some slot) :
    ∃ b, slot = .bound b ∧ K b.storage := by
  obtain ⟨path, hpath, -⟩ := exists_outward h.grown hs
  obtain ⟨inner, i, outer, -, -, hheld⟩ := (slot?_eq_some_iff h.grown hpath).1 hslot
  exact h.bound hheld

theorem lookup (h : t.Settled K) (hs : s.index < t.frames.length) (name : String) :
    (∃ b, t.lookup s name = .ok b ∧ K b.storage) ∨
      t.slot? s name = none ∧ t.lookup s name = .error (.undefinedVariable name) := by
  cases hslot : t.slot? s name with
  | none => exact .inr ⟨rfl, by rw [ScopeTable.lookup, hslot]⟩
  | some slot =>
    obtain ⟨b, rfl, hb⟩ := h.slot hs hslot
    exact .inl ⟨b, by rw [ScopeTable.lookup, hslot], hb⟩

theorem root (h : t.Settled K) (hs : s.index < t.frames.length) : (t.root s).index < t.frames.length := by
  obtain ⟨path, hpath, -⟩ := exists_outward h.grown hs
  exact hpath.index_lt _ (List.mem_of_getLast? (getLast?_of_outward h.grown hpath))

theorem bind (h : t.Settled K) (hs : s.index < t.frames.length) (hb : K b.storage) (hbind : t.bind s b = .ok t') :
    t'.Settled K where
  grown := h.grown.bind hs hbind
  bound {i name slot} hheld := by
    rw [held?_bind hs hbind] at hheld
    split at hheld
    · exact ⟨b, (Option.some.inj hheld).symm, hb⟩
    · exact h.bound hheld

/-- a scope is opened with addresses for all its names -/
theorem cons (h : t.Settled K) {parent : Option ScopeId} (hparent : ∀ p, parent = some p → p.index < t.frames.length)
    {bindings : List Binding} (hnodup : (bindings.map Binding.name).Nodup) (hK : ∀ b ∈ bindings, K b.storage) :
    Settled K ⟨⟨parent, boundSlots bindings⟩ :: t.frames⟩ where
  grown := h.grown.cons hparent
  bound {i name slot} hheld := by
    obtain ⟨frame, hframe, hslot⟩ := Option.bind_eq_some_iff.1 hheld
    rcases old_or_new_of_frame?_cons hframe with hi | ⟨rfl, rfl⟩
    · exact h.bound ((held?_cons hi).symm.trans hheld)
    · rw [lookup_boundSlots hnodup] at hslot
      obtain ⟨b, hb, rfl⟩ := Option.map_eq_some_iff.1 hslot
      exact ⟨b, rfl, hK b (List.mem_of_find?_eq_some hb)⟩

/-- the target of an assignment is found, or made in the outermost frame, which does not have the name -/
theorem resolveOrAllocate (h : t.Settled K) (hglobal : K .global) (hs : s.index < t.frames.length) (name : String)
    (globals : GlobalAllocator) : ∃ b t' globals', t.resolveOrAllocate s name globals = .ok (b, t', globals') ∧
      K b.storage ∧ t'.Settled K ∧ t'.frames.length = t.frames.length := by
  rcases h.lookup hs name with ⟨b, hb, hstorage⟩ | ⟨hnone, -⟩
  · have hvisible : t.isVisible s name := by
      rw [isVisible]
      cases hslot : t.slot? s name with
      | none =>
        rw [ScopeTable.lookup, hslot] at hb
        cases hb
      | some slot => rfl
    refine ⟨b, t, globals, ?_, hstorage, h, rfl⟩
    rw [ScopeTable.resolveOrAllocate, if_pos hvisible, hb]
    rfl
  · have hvisible : ¬ t.isVisible s name := by simp [isVisible, hnone]
    obtain ⟨path, hpath, -⟩ := exists_outward h.grown hs
    have hroot : t.root s ∈ path := List.mem_of_getLast? (getLast?_of_outward h.grown hpath)
    have hfree : t.held? (t.root s) name = none := (slot?_eq_none_iff h.grown hpath).1 hnone _ hroot
    obtain ⟨t', hbind⟩ := exists_bind ⟨name, .global, globals.next⟩ (h.root hs) fun b' => by simp [hfree]
    refine ⟨⟨name, .global, globals.next⟩, t', (globals.allocate wordSize).2, ?_, hglobal,
      h.bind (h.root hs) hglobal hbind, length_bind (h.root hs) hbind⟩
    simp only [ScopeTable.resolveOrAllocate, if_neg hvisible, GlobalAllocator.allocate, hbind]
    rfl

end Settled
end ThreeMachines.ScopeTable
