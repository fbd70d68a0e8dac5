/-
The globals of a scope table in the order of their addresses.

A table keeps the newest name first, and `ScopeTable.globals` sorts by address. Globals that have been bound in the order
of their addresses come out just as they were bound (`globals_eq_of_ascending`), whatever scopes have been opened since.
-/
import ThreeMachines.Proofs.Generation

namespace ThreeMachines

/-- each binding has a greater address than those before it -/
def Ascending (bindings : List Binding) : Prop := bindings.Pairwise fun a b => a.address < b.address

namespace ScopeTable

variable {bindings sorted : List Binding} {b : Binding}

theorem insertByAddress_last (h : ∀ a ∈ sorted, a.address < b.address) : insertByAddress b sorted = sorted ++ [b] := by
  induction sorted with
  | nil => rfl
  | cons other rest ih =>
    have hother := h other List.mem_cons_self
    rw [insertByAddress, if_neg (not_lt.2 hother.le), ih fun a ha => h a (List.mem_cons_of_mem _ ha)]
    rfl

theorem foldl_insertByAddress (h : Ascending (sorted ++ bindings)) :
    bindings.foldl (fun sorted b => insertByAddress b sorted) sorted = sorted ++ bindings := by
  induction bindings generalizing sorted with
  | nil => exact (List.append_nil sorted).symm
  | cons b rest ih =>
    have hlast : ∀ a ∈ sorted, a.address < b.address := fun a ha =>
      (List.pairwise_append.1 h).2.2 a ha b List.mem_cons_self
    rw [List.foldl_cons, insertByAddress_last hlast, ih (by simpa using h), List.append_assoc, List.singleton_append]

theorem filterMap_bound (h : ∀ b ∈ bindings, b.storage = .global) :
    (bindings.map fun b => (b.name, Slot.bound b)).filterMap (fun entry =>
      match entry.2 with
      | .bound b => if b.storage = .global then some b else none
      | .declared => none) = bindings := by
  rw [List.filterMap_map]
  refine (List.filterMap_congr fun b hb => ?_).trans List.filterMap_some
  simp [h b hb]

/-- globals that were bound in the order of their addresses -/
theorem globals_eq_of_ascending (frames : List Frame)
    (hslots : (frames.getLast?.map Frame.slots).getD [] = (bindings.map fun b => (b.name, Slot.bound b)).reverse)
    (hglobal : ∀ b ∈ bindings, b.storage = .global) (h : Ascending bindings) : globals ⟨frames⟩ = bindings := by
  have hfilter := @filterMap_bound bindings.reverse fun b hb => hglobal b (List.mem_reverse.1 hb)
  calc globals ⟨frames⟩
    _ = bindings.reverse.reverse.foldl (fun sorted b => insertByAddress b sorted) [] := by
      rw [globals, hslots, ← List.map_reverse]
      exact congrArg (fun found => found.reverse.foldl (fun sorted b => insertByAddress b sorted) []) hfilter
    _ = bindings.foldl (fun sorted b => insertByAddress b sorted) [] := by rw [List.reverse_reverse]
    _ = bindings := foldl_insertByAddress h

end ScopeTable

/-- the globals that are bound before all else stay what they are while scopes are opened -/
theorem Draft.Extends.globals_eq {ι : Type} {session : Session} {bindings : List Binding} {d d' : Draft ι}
    (hbind : Gen.bindAll ScopeTable.global bindings ⟨session, .empty, .empty⟩ = .ok () d) (hx : d.Extends d')
    (hglobal : ∀ b ∈ bindings, b.storage = .global) (h : Ascending bindings) : d'.scopes.globals = bindings := by
  obtain ⟨rfl, -, -⟩ := Gen.bindAll_ok (d := ⟨session, .empty, .empty⟩) (f := ⟨none, []⟩) [] hbind
  obtain ⟨newer, hframes⟩ := hx.frames
  refine ScopeTable.globals_eq_of_ascending d'.scopes.frames ?_ hglobal h
  rw [hframes, List.getLast?_append, List.getLast?_singleton]
  simp

end ThreeMachines
