/-
The scopes that the generator of the stack machine opens.

All scopes hang on the global one, and the global one only gains names (`Rooted`). So what a name stands for falls into
two parts: the names of the scopes inside the global one, which stay as they are (`inside`), and under them the globals,
of which there may be more later on (`globalScope`).

- `View d s names ρ`: in the draft `d` there are the globals `names`, and `ρ` is what the scope `s` adds to them.
- `lookup_ok`, `resolve_ok`, `openScope_ok`, ...: what the steps of the generator find and leave in these terms.
-/
import ThreeMachines.Proofs.AddressOrder
import ThreeMachines.Proofs.Environments

namespace ThreeMachines

/-- a scope inside another one -/
def Scope.over (ρ outer : Scope) : Scope := fun x => (ρ x).or (outer x)

namespace Stack

/-- global variables, the newest first -/
def globalBindings : List String → List Binding
  | [] => []
  | name :: names => ⟨name, .global, wordSize * names.length⟩ :: globalBindings names

def globalScope (names : List String) : Scope := Scope.empty.extend (globalBindings names)

/-- all scopes hang on the global one, which has these names -/
inductive Rooted : List Frame → List String → Prop
  | root {names : List String} : names.Nodup →
    Rooted [⟨none, (globalBindings names).map fun b => (b.name, .bound b)⟩] names
  | inner {older : List Frame} {names : List String} {parent : ScopeId} {bindings : List Binding} :
    Rooted older names → parent.index < older.length → (bindings.map Binding.name).Nodup →
    (∀ b ∈ bindings, b.storage ≠ .global) →
    Rooted (⟨some parent, ScopeTable.boundSlots bindings⟩ :: older) names

/-- what the names stand for that are bound between a scope and the global one -/
def inside : List Frame → ScopeId → Scope
  | [], _ => .empty
  | frame :: older, s =>
    if s.index = older.length then
      match frame.parent with
      | some parent => fun x =>
        match frame.slots.lookup x with
        | some (.bound b) => some b
        | _ => inside older parent x
      | none => .empty
    else inside older s

section
variable {frames older : List Frame} {names : List String} {s parent : ScopeId} {x : String} {b : Binding}
  {bindings : List Binding}

theorem Rooted.nodup (h : Rooted frames names) : names.Nodup := by
  induction h with
  | root h => exact h
  | inner _ _ _ _ ih => exact ih

theorem map_name_globalBindings (names : List String) : (globalBindings names).map Binding.name = names := by
  induction names with
  | nil => rfl
  | cons name names ih => rw [globalBindings, List.map_cons, ih]

/-- the oldest frame has the globals, and nothing else -/
theorem Rooted.slots_eq (h : Rooted frames names) :
    (frames.getLast?.map Frame.slots).getD [] = (globalBindings names).map fun b => (b.name, .bound b) := by
  induction h with
  | root => rfl
  | @inner older _ _ _ _ hparent _ _ ih =>
    cases older with
    | nil => exact absurd hparent (Nat.not_lt_zero _)
    | cons frame older => rwa [List.getLast?_cons_cons]

theorem globalScope_eq_none (h : globalScope names x = none) : x ∉ names := by
  rw [← map_name_globalBindings names]
  exact (Scope.extend_eq_none h).1

theorem storage_of_mem (h : b ∈ globalBindings names) : b.storage = .global := by
  induction names with
  | nil => simp [globalBindings] at h
  | cons name names ih =>
    rcases List.mem_cons.1 h with rfl | h
    exacts [rfl, ih h]

theorem storage_globalScope (h : globalScope names x = some b) : b.storage = .global :=
  storage_of_mem (Scope.mem_of_extend_empty h).1

theorem map_address_globalBindings (names : List String) :
    (globalBindings names).map Binding.address =
      (List.range names.length).reverse.map fun i : Nat => wordSize * (i : Int) := by
  induction names with
  | nil => rfl
  | cons name names ih => simp [globalBindings, ih, List.range_succ]

/-- a newer global lies above the older ones -/
theorem descending_globalBindings (names : List String) :
    (globalBindings names).Pairwise fun a b => b.address < a.address := by
  have haddress : ((globalBindings names).map Binding.address).Pairwise (fun a b => b < a) := by
    rw [map_address_globalBindings, List.pairwise_map, List.pairwise_reverse]
    refine List.pairwise_lt_range.imp fun hlt => ?_
    simp only [wordSize]
    omega
  exact List.pairwise_map.1 haddress

/-- globals stay what they are when there are more of them -/
theorem globalScope_suffix {final : List String} (hs : names <:+ final) (hnodup : final.Nodup)
    (h : globalScope names x = some b) : globalScope final x = some b := by
  obtain ⟨hb, rfl⟩ := Scope.mem_of_extend_empty h
  refine Scope.extend_of_mem _ (by rwa [map_name_globalBindings]) ?_
  obtain ⟨newer, rfl⟩ := hs
  clear h hnodup
  induction newer with
  | nil => exact hb
  | cons name newer ih => exact List.mem_cons_of_mem _ ih

theorem lookup_bound (bindings : List Binding) (x : String) :
    (bindings.map fun b => (b.name, Slot.bound b)).lookup x = (bindings.find? fun b => b.name = x).map .bound := by
  induction bindings with
  | nil => rfl
  | cons b rest ih =>
    rw [List.map_cons, List.lookup_cons, List.find?_cons, ih]
    by_cases hx : b.name = x
    · simp [hx]
    · simp [hx, beq_false_of_ne (Ne.symm hx)]

theorem inside_newest (h : (bindings.map Binding.name).Nodup) (older : List Frame) :
    inside (⟨some parent, ScopeTable.boundSlots bindings⟩ :: older) ⟨older.length⟩ =
      (inside older parent).extend bindings := by
  funext x
  rw [inside, if_pos rfl, Scope.extend]
  simp only [ScopeTable.lookup_boundSlots h]
  cases bindings.find? (fun b => b.name = x) <;> rfl

theorem inside_older {frame : Frame} (h : s.index < older.length) : inside (frame :: older) s = inside older s := by
  rw [inside, if_neg (Nat.ne_of_lt h)]

/-- nothing lies between the global scope and itself -/
theorem inside_global (h : Rooted frames names) : inside frames ⟨0⟩ = .empty := by
  induction h with
  | root => rfl
  | inner _ hparent _ _ ih => rw [inside_older ((Nat.zero_le _).trans_lt hparent), ih]

theorem storage_inside (h : Rooted frames names) (hb : inside frames s x = some b) : b.storage ≠ .global := by
  induction h generalizing s with
  | root =>
    rw [inside] at hb
    split at hb <;> cases hb
  | @inner older names parent bindings _ hparent hnodup hlocal ih =>
    by_cases hlast : s.index = older.length
    · obtain rfl : s = ⟨older.length⟩ := by
        cases s
        simpa using hlast
      rw [inside_newest hnodup, Scope.extend] at hb
      split at hb
      · rename_i hf
        obtain rfl := Option.some.inj hb
        exact hlocal _ (List.mem_of_find?_eq_some hf)
      · exact ih hb
    · rw [inside, if_neg hlast] at hb
      exact ih hb

theorem slot?_rooted (h : Rooted frames names) (hs : s.index < frames.length) (x : String) :
    ScopeTable.slot? ⟨frames⟩ s x = ((inside frames s).over (globalScope names) x).map .bound := by
  induction h generalizing s with
  | @root names hnodup =>
    obtain rfl : s = ⟨([] : List Frame).length⟩ := by
      cases s
      simpa using hs
    rw [ScopeTable.slot?_newest, lookup_bound, inside, if_pos rfl]
    cases hf : (globalBindings names).find? (fun b => b.name = x) <;> simp [Scope.over, globalScope, Scope.extend,
      Scope.empty, hf]
  | @inner older names parent bindings _ hparent hnodup _ ih =>
    by_cases hlast : s.index = older.length
    · obtain rfl : s = ⟨older.length⟩ := by
        cases s
        simpa using hlast
      rw [ScopeTable.slot?_newest, ScopeTable.lookup_boundSlots hnodup, inside_newest hnodup, Option.bind_some, ih hparent,
        Scope.over, Scope.over, Scope.extend]
      cases bindings.find? (fun b => b.name = x) <;> simp
    · have hold : s.index < older.length := by
        rw [List.length_cons] at hs
        omega
      rw [inside_older hold, ← ih hold]
      exact congrFun (ScopeTable.slot?_append [_] older hold) x

/-- seen from any scope, the outermost one is the global one -/
theorem root_rooted (h : Rooted frames names) (hs : s.index < frames.length) : ScopeTable.root ⟨frames⟩ s = ⟨0⟩ := by
  have hchain : ∃ inner frame, ScopeTable.chainIn frames frames.length s = inner ++ [(⟨0⟩, frame)] := by
    induction h generalizing s with
    | root =>
      obtain rfl : s = ⟨0⟩ := by
        cases s
        simpa using hs
      exact ⟨[], _, rfl⟩
    | @inner older names parent bindings _ hparent _ _ ih =>
      rw [ScopeTable.chainIn, List.length_cons, Nat.add_sub_cancel]
      by_cases hlast : s.index = older.length
      · obtain ⟨inner, frame, hchain⟩ := ih hparent
        rw [if_pos (by omega)]
        simp only [hchain]
        exact ⟨_ :: inner, frame, rfl⟩
      · rw [if_neg (by omega)]
        exact ih (by rw [List.length_cons] at hs; omega)
  obtain ⟨inner, frame, hchain⟩ := hchain
  rw [ScopeTable.root, ScopeTable.chain, hchain, List.getLast?_concat]

/-- a name that is added to the global scope -/
theorem rooted_modify (h : Rooted frames names) (hx : x ∉ names) :
    (frames[frames.length - 1]?.bind fun frame => frame.slots.lookup x) = none ∧
      Rooted (frames.modify (frames.length - 1) fun frame =>
        { frame with slots := (x, .bound ⟨x, .global, wordSize * names.length⟩) :: frame.slots }) (x :: names) ∧
      ∀ s, inside (frames.modify (frames.length - 1) fun frame =>
        { frame with slots := (x, .bound ⟨x, .global, wordSize * names.length⟩) :: frame.slots }) s = inside frames s := by
  induction h with
  | @root names hnodup =>
    have hnone : (globalBindings names).find? (fun b => b.name = x) = none := by
      rw [List.find?_eq_none]
      intro b hb hname
      exact hx (map_name_globalBindings names ▸ List.mem_map.2 ⟨b, hb, by simpa using hname⟩)
    refine ⟨?_, .root (List.nodup_cons.2 ⟨hx, hnodup⟩), fun s => rfl⟩
    simp [lookup_bound, hnone]
  | @inner older names parent bindings hrooted hparent hnodup hlocal ih =>
    obtain ⟨hslot, hrooted', hinside⟩ := ih hx
    obtain ⟨n, hn⟩ : ∃ n, older.length = n + 1 := Nat.exists_eq_add_one.2 (by omega)
    rw [hn, Nat.add_sub_cancel] at hslot hrooted' hinside
    rw [List.length_cons, hn, Nat.add_sub_cancel, List.getElem?_cons_succ, List.modify_succ_cons]
    refine ⟨hslot, .inner hrooted' (by rwa [List.length_modify]) hnodup hlocal, fun s => ?_⟩
    rw [inside, inside, List.length_modify, hinside]
    simp only [hinside]

/-- a new global -/
theorem bind_rooted (h : Rooted frames names) (hx : x ∉ names) {t : ScopeTable}
    (hb : ScopeTable.bind ⟨frames⟩ ⟨0⟩ ⟨x, .global, wordSize * names.length⟩ = .ok t) :
    Rooted t.frames (x :: names) ∧ t.frames.length = frames.length ∧ ∀ s, inside t.frames s = inside frames s := by
  obtain ⟨hslot, hrooted, hinside⟩ := rooted_modify h hx
  have hown : ScopeTable.ownSlot? ⟨frames⟩ ⟨0⟩ x = none := hslot
  rw [ScopeTable.bind, hown] at hb
  cases hb
  exact ⟨hrooted, List.length_modify _ _ _, hinside⟩

end

/-! ## Steps of the generator -/

variable {d d' : Draft Op} {names names' : List String} {s : ScopeId} {ρ : Scope} {x : String} {b : Binding}

/-- the globals of a draft, and what a scope adds to them -/
structure View (d : Draft Op) (s : ScopeId) (names : List String) (ρ : Scope) : Prop where
  rooted : Rooted d.scopes.frames names
  next : d.session.globals.next = wordSize * names.length
  index : s.index < d.scopes.frames.length
  inside : inside d.scopes.frames s = ρ

/-- there may be more globals than before, and nothing else changes for a scope that was there before -/
structure Widens (d : Draft Op) (names : List String) (d' : Draft Op) (names' : List String) : Prop where
  suffix : names <:+ names'
  view : ∀ s ρ, View d s names ρ → View d' s names' ρ

namespace Widens

theorem refl (d : Draft Op) (names : List String) : Widens d names d names :=
  ⟨List.suffix_refl names, fun _ _ => id⟩

theorem trans {d'' : Draft Op} {names'' : List String} (h : Widens d names d' names')
    (h' : Widens d' names' d'' names'') : Widens d names d'' names'' :=
  ⟨h.suffix.trans h'.suffix, fun s ρ hv => h'.view s ρ (h.view s ρ hv)⟩

end Widens

theorem widens_issued (d : Draft Op) (labels : LabelAllocator) (names : List String) :
    Widens d names (Gen.issued d labels) names :=
  ⟨List.suffix_refl names, fun _ _ h => ⟨h.rooted, h.next, h.index, h.inside⟩⟩

/-- what a name stands for -/
theorem lookup_ok (hv : View d s names ρ) (h : Gen.lookup s x d = .ok b d') :
    d' = d ∧ ρ.over (globalScope names) x = some b := by
  obtain ⟨rfl, h⟩ := Gen.lookup_ok.1 h
  refine ⟨rfl, ?_⟩
  rw [ScopeTable.sees, slot?_rooted hv.rooted hv.index, hv.inside] at h
  cases hb : ρ.over (globalScope names) x with
  | none => simp [hb] at h
  | some b' => simpa [hb] using h

/-- what the target of an assignment stands for: it is a new global if it stood for nothing -/
theorem resolve_ok (hv : View d s names ρ) (h : Gen.resolveOrAllocate s x d = .ok b d') :
    ∃ names', Widens d names d' names' ∧ ρ.over (globalScope names') x = some b ∧
      (names' = names ∨ names' = x :: names ∧ ρ x = none) := by
  simp only [Gen.resolveOrAllocate, Gen.bind_ok, Gen.get_ok] at h
  obtain ⟨_, _, ⟨rfl, rfl⟩, h⟩ := h
  have hslot := slot?_rooted hv.rooted hv.index x
  rw [hv.inside] at hslot
  rw [ScopeTable.resolveOrAllocate, ScopeTable.isVisible, hslot] at h
  cases hb : ρ.over (globalScope names) x with
  | some b' =>
    have hlookup : d.scopes.lookup s x = .ok b' := by
      rw [ScopeTable.lookup, hslot, hb]
      rfl
    simp only [hb, Option.map_some, Option.isSome_some, if_pos, hlookup, bind, Except.bind, pure, Except.pure] at h
    obtain ⟨_, _, hset, hpure⟩ := Gen.bind_ok.1 h
    obtain rfl := Gen.set_ok.1 hset
    obtain ⟨rfl, rfl⟩ := Gen.pure_ok.1 hpure
    exact ⟨names, .refl d names, hb, .inl rfl⟩
  | none =>
    rw [Scope.over, Option.or_eq_none_iff] at hb
    have hx := globalScope_eq_none hb.2
    simp only [hb.1, hb.2, Scope.over, Option.or_none, Option.map_none, Option.isSome_none, Bool.false_eq_true, if_false,
      GlobalAllocator.allocate, hv.next, root_rooted hv.rooted hv.index, bind, Except.bind, pure, Except.pure] at h
    cases ht : d.scopes.bind ⟨0⟩ ⟨x, .global, wordSize * names.length⟩ with
    | error e =>
      simp only [ht] at h
      exact absurd h Gen.throw_ok
    | ok t =>
      simp only [ht] at h
      obtain ⟨_, _, hset, hpure⟩ := Gen.bind_ok.1 h
      obtain rfl := Gen.set_ok.1 hset
      obtain ⟨rfl, rfl⟩ := Gen.pure_ok.1 hpure
      obtain ⟨hrooted, hlength, hinside⟩ := bind_rooted hv.rooted hx ht
      refine ⟨x :: names, ⟨List.suffix_cons x names, fun s' ρ' hv' => ⟨hrooted, ?_, ?_, ?_⟩⟩, ?_, .inr ⟨rfl, hb.1⟩⟩
      · rw [List.length_cons]
        push_cast
        ring
      · rw [hlength]
        exact hv'.index
      · rw [hinside, hv'.inside]
      · simp [Scope.over, hb.1, globalScope, globalBindings, Scope.extend]

/-- the scope of a block -/
theorem openScope_ok {bindings : List Binding} {inner : ScopeId} (hv : View d s names ρ)
    (hlocal : ∀ b ∈ bindings, b.storage ≠ .global) (h : Gen.openScope (some s) bindings d = .ok inner d') :
    Widens d names d' names ∧ (bindings.map Binding.name).Nodup ∧ View d' inner names (ρ.extend bindings) := by
  obtain ⟨rfl, hnodup, rfl, -⟩ := Gen.openScope_ok h
  have hrooted := hv.rooted.inner hv.index hnodup hlocal
  refine ⟨⟨List.suffix_refl names, fun s' ρ' hv' => ⟨hrooted, hv.next, ?_, ?_⟩⟩, hnodup, hrooted, hv.next, ?_, ?_⟩
  · exact hv'.index.trans (Nat.lt_succ_self _)
  · exact (inside_older hv'.index).trans hv'.inside
  · exact Nat.lt_succ_self _
  · exact (inside_newest hnodup _).trans (congrArg (Scope.extend · bindings) hv.inside)

theorem rootOf_ok {root : ScopeId} (hv : View d s names ρ) (h : Gen.rootOf s d = .ok root d') : root = ⟨0⟩ ∧ d' = d := by
  simp only [Gen.rootOf, Gen.bind_ok, Gen.get_ok, Gen.pure_ok] at h
  obtain ⟨_, _, ⟨rfl, rfl⟩, rfl, rfl⟩ := h
  exact ⟨root_rooted hv.rooted hv.index, rfl⟩

/-- the scope of a procedure -/
theorem openFrame_ok {bindings : List Binding} {frame : ScopeId} (hv : View d s names ρ)
    (hlocal : ∀ b ∈ bindings, b.storage ≠ .global) (h : Gen.openScope (some ⟨0⟩) bindings d = .ok frame d') :
    Widens d names d' names ∧ (bindings.map Binding.name).Nodup ∧ View d' frame names (Scope.empty.extend bindings) :=
   openScope_ok ⟨hv.rooted, hv.next, (Nat.zero_le _).trans_lt hv.index, inside_global hv.rooted⟩ hlocal h

/-- a procedure uses no name of the scopes around it but globals -/
theorem refuseCaptures_ok {captures : List String} (hv : View d s names ρ)
    (h : refuseCaptures s captures d = .ok () d') : d' = d ∧ ∀ x ∈ captures, ρ x = none := by
  induction captures with
  | nil =>
    obtain ⟨-, rfl⟩ := Gen.pure_ok.1 h
    simp
  | cons name captures ih =>
    rw [refuseCaptures, Gen.bind_ok] at h
    obtain ⟨_, _, hg, h⟩ := h
    obtain ⟨rfl, rfl⟩ := Gen.get_ok.1 hg
    have hslot := slot?_rooted hv.rooted hv.index name
    rw [hv.inside] at hslot
    cases hb : ρ name with
    | some b =>
      -- the name would be looked up as a name that is not global
      have hstorage := storage_inside hv.rooted (hv.inside ▸ hb)
      simp only [ScopeTable.lookup, hslot, Scope.over, hb, Option.some_or, Option.map_some, if_neg hstorage] at h
      exact absurd h Gen.throw_ok
    | none =>
      have hrest : refuseCaptures s captures d = .ok () d' := by
        cases hl : d.scopes.lookup s name with
        | ok b =>
          simp only [hl] at h
          by_cases hstorage : b.storage = .global
          · rwa [if_pos hstorage] at h
          · rw [if_neg hstorage] at h
            exact absurd h Gen.throw_ok
        | error e => simpa only [hl] using h
      obtain ⟨rfl, hnone⟩ := ih hrest
      refine ⟨rfl, fun x hx => ?_⟩
      rcases List.mem_cons.1 hx with rfl | hx
      exacts [hb, hnone x hx]

end Stack
end ThreeMachines
