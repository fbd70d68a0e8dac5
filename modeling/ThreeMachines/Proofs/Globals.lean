/-
Which names become globals, and where the globals lie.

The stack machine makes a global when it meets an assignment to a name that stands for nothing yet; the closure and the
vector machine number the names beforehand. `globals_exact`: on every machine the globals are just the names that the
expression assigns outside of their binders, each once. On the stack machine the words lie in the order in which the
names were met, on the others in the order of the names.
-/
import ThreeMachines.Proofs.Stack.Acceptance
import ThreeMachines.Proofs.Closure.Emission
import ThreeMachines.Proofs.Vector.Emission

namespace ThreeMachines

theorem Expr.nodup_assignedNames (e : Expr) : e.assignedNames.Nodup := nodup_orderNames _

/-- the names that are used and assigned are those that are assigned -/
theorem Expr.globalNames_eq (e : Expr) : e.globalNames = e.assignedNames := by
  have hsame : e.globalNames.Perm e.assignedNames := by
    refine (List.perm_ext_iff_of_nodup (nodup_globalNames e) (nodup_assignedNames e)).2 fun x => ?_
    rw [mem_globalNames, mem_assignedNames]
    exact and_iff_right_of_imp uses_of_assigns
  exact hsame.eq_of_pairwise (fun _ _ _ _ hab hba => absurd (hab.trans hba) (lt_irrefl _))
    ((pairwise_orderNames _).filter _) (pairwise_orderNames _)

/-- every global takes a word -/
theorem Program.globalSpace_eq {ι : Type} (p : Program ι) : p.globalSpace = wordSize * p.globals.length := by
  rw [globalSpace]
  induction p.globals with
  | nil => rfl
  | cons b rest ih =>
    rw [List.foldr_cons, ih, List.length_cons, Binding.size]
    push_cast
    ring

/-! ## Globals that are numbered beforehand -/

namespace Vector

theorem map_address_numbered (storage : Storage) (names : List String) :
    (numbered storage 0 names).map Binding.address = (List.range names.length).map fun i : Nat => (i : Int) := by
  have hfrom (place : Nat) : (numbered storage place names).map Binding.address =
      (List.range' place names.length).map fun i : Nat => (i : Int) := by
    induction names generalizing place with
    | nil => rfl
    | cons name names ih =>
      rw [numbered, List.map_cons, List.length_cons, List.range'_succ, List.map_cons, ← ih (place + 1)]
      rfl
  rw [List.range_eq_range']
  exact hfrom 0

theorem ascending_numbered (storage : Storage) (names : List String) : Ascending (numbered storage 0 names) := by
  have haddress : ((numbered storage 0 names).map Binding.address).Pairwise (· < ·) := by
    rw [map_address_numbered, List.pairwise_map]
    exact List.pairwise_lt_range.imp fun h => Int.ofNat_lt.2 h
  exact List.pairwise_map.1 haddress

theorem storage_numbered {storage : Storage} {place : Int} {names : List String} {b : Binding}
    (h : b ∈ numbered storage place names) : b.storage = storage := by
  induction names generalizing place with
  | nil => simp [numbered] at h
  | cons name names ih =>
    rcases List.mem_cons.1 h with rfl | h
    exacts [rfl, ih h]

/-- variables that are numbered from 0 have places below their number -/
theorem address_numbered {storage : Storage} {names : List String} {b : Binding} (h : b ∈ numbered storage 0 names) :
    0 ≤ b.address ∧ b.address < names.length := by
  have hb := List.mem_map_of_mem (f := Binding.address) h
  rw [map_address_numbered] at hb
  obtain ⟨i, hi, hi'⟩ := List.mem_map.1 hb
  rw [← hi']
  exact ⟨by omega, by exact_mod_cast List.mem_range.1 hi⟩

/-- the globals of a program for the vector machine -/
theorem globals_compile {e : Expr} {p : Program Op} (h : compile .vector e = .ok p) :
    p.globals = numbered .global 0 e.assignedNames := by
  obtain ⟨d, hgen, -⟩ := generate_of_compile h
  simp only [ThreeMachines.generate, generate, Gen.bind_ok, Gen.pure_ok, Gen.get_ok] at hgen
  obtain ⟨_, d₁, hbind, entry, d₂, hcode, _, _, ⟨rfl, rfl⟩, rfl, rfl⟩ := hgen
  rw [Expr.globalNames_eq] at hbind
  obtain ⟨hd₁, -⟩ := Gen.bindGlobals_ok hbind
  obtain ⟨hx, -⟩ := emits_code e (by rw [hd₁]; exact Nat.one_pos) (.refl d₁) hcode
  exact hx.globals_eq hbind (fun b hb => storage_numbered hb) (ascending_numbered _ _)

end Vector

namespace Closure

theorem globalBindings_eq (place : Int) (names : List String) :
    globalBindings place names = Vector.numbered .global place names := by
  induction names generalizing place with
  | nil => rfl
  | cons name names ih => rw [globalBindings, Vector.numbered, ih]

/-- the globals of a program for the closure machine -/
theorem globals_compile {e : Expr} {p : Program Op} (h : compile .closure e = .ok p) :
    p.globals = Vector.numbered .global 0 e.assignedNames := by
  obtain ⟨d, hgen, -⟩ := generate_of_compile h
  simp only [ThreeMachines.generate, generate, Gen.bind_ok, Gen.pure_ok, Gen.get_ok] at hgen
  obtain ⟨_, d₁, hbind, entry, d₂, hcode, _, _, ⟨rfl, rfl⟩, rfl, rfl⟩ := hgen
  rw [globalBindings_eq, Expr.globalNames_eq] at hbind
  obtain ⟨hd₁, -⟩ := Gen.bindGlobals_ok hbind
  obtain ⟨hx, -⟩ := emits_code e (by rw [hd₁]; exact Nat.one_pos) (.refl d₁) hcode
  exact hx.globals_eq hbind (fun b hb => Vector.storage_numbered hb) (Vector.ascending_numbered _ _)

end Closure

theorem globals_numbered {m : Machine} {e : Expr} {p : Program m.Op} (hm : m ≠ .stack) (h : compile m e = .ok p) :
    p.globals = Vector.numbered .global 0 e.assignedNames := by
  cases m with
  | stack => exact absurd rfl hm
  | closure => exact Closure.globals_compile h
  | vector => exact Vector.globals_compile h

theorem globals_length {m : Machine} {e : Expr} {p : Program m.Op} (hm : m ≠ .stack) (h : compile m e = .ok p) :
    p.globals.length = e.globalNames.length := by
  rw [globals_numbered hm h, ← List.length_map (f := Binding.name), Vector.map_name_numbered, Expr.globalNames_eq]

/-! ## All machines -/

/-- the globals of the stack machine are what the others number beforehand, in some other order -/
theorem Stack.perm_globals {e : Expr} {p : Program Op} (h : compile .stack e = .ok p) :
    (p.globals.map Binding.name).Perm e.assignedNames := by
  obtain ⟨names, d, -, hnodup, hglobals, -, hassigned, hemits⟩ := globals_compile h
  rw [hglobals, List.map_reverse, map_name_globalBindings]
  refine (List.reverse_perm names).trans ((List.perm_ext_iff_of_nodup hnodup (Expr.nodup_assignedNames e)).2 fun x => ?_)
  rw [Expr.mem_assignedNames]
  exact ⟨hassigned x, fun hx => hemits.resolves.1 x (Expr.uses_of_assigns hx) rfl⟩

/-- **Globals.** On every machine the globals of a program are the names that the expression assigns and nothing around
the assignment binds, each once, in words of 8 bytes. On the stack machine these lie one after the other in the order of
the list and use up all that the session has given out; on the other machines the names are in order and numbered from
0. -/
theorem globals_exact (e : Expr) :
    (∀ (m : Machine) (p : Program m.Op), compile m e = .ok p →
      (p.globals.map Binding.name).Perm e.assignedNames ∧ (p.globals.map Binding.name).Nodup ∧
        p.globalSpace = 8 * p.globals.length) ∧
    (∀ p : Program Machine.stack.Op, compile .stack e = .ok p →
      p.globals.map Binding.address = (List.range p.globals.length).map (fun i : Nat => 8 * (i : Int)) ∧
        (Gen.inSession .new (generate .stack e)).2.globals.totalSize = 8 * p.globals.length) ∧
    ∀ (m : Machine) (p : Program m.Op), m ≠ .stack → compile m e = .ok p →
      p.globals.map Binding.name = e.assignedNames ∧ (p.globals.map Binding.name).Pairwise (· < ·) ∧
        p.globals.map Binding.address = (List.range p.globals.length).map (fun i : Nat => (i : Int)) := by
  have hnumbered {m : Machine} {p : Program m.Op} (hm : m ≠ .stack) (h : compile m e = .ok p) :
      p.globals.map Binding.name = e.assignedNames := by
    rw [globals_numbered hm h, Vector.map_name_numbered]
  refine ⟨fun m p h => ?_, fun p h => ?_, fun m p hm h => ⟨hnumbered hm h, ?_, ?_⟩⟩
  · have hperm : (p.globals.map Binding.name).Perm e.assignedNames := by
      by_cases hm : m = .stack
      · subst hm
        exact Stack.perm_globals h
      · rw [hnumbered hm h]
    exact ⟨hperm, hperm.nodup_iff.2 (Expr.nodup_assignedNames e), p.globalSpace_eq⟩
  · obtain ⟨names, d, hgen, -, hglobals, hnext, -, -⟩ := Stack.globals_compile h
    have hlength : p.globals.length = names.length := by
      rw [hglobals, List.length_reverse, ← List.length_map (f := Binding.name), Stack.map_name_globalBindings]
    rw [hlength]
    constructor
    · rw [hglobals, List.map_reverse, Stack.map_address_globalBindings, ← List.map_reverse, List.reverse_reverse]
      rfl
    · rw [Gen.inSession, generate, EStateM.run, hgen]
      exact hnext
  · rw [hnumbered hm h]
    exact pairwise_orderNames _
  · calc p.globals.map Binding.address
      _ = (Vector.numbered .global 0 e.assignedNames).map Binding.address := by rw [globals_numbered hm h]
      _ = (List.range e.assignedNames.length).map fun i : Nat => (i : Int) := Vector.map_address_numbered ..
      _ = (List.range p.globals.length).map fun i : Nat => (i : Int) := by rw [globals_length hm h, Expr.globalNames_eq]

/-- the names are met in the order `b`, `a`: the first assignment stands before the function that makes the second -/
def metOutOfOrder : Expr :=
  .seq [.assign "b" (.number 1), .block [("c", .number 2)] (.assign "c" (.assign "b" (.number 3))),
    .call (.lambda [] (.assign "a" (.var "b"))) []]

theorem globals_metOutOfOrder : ∃ (p : Program Machine.stack.Op) (q : Program Machine.vector.Op),
    compile .stack metOutOfOrder = .ok p ∧ compile .vector metOutOfOrder = .ok q ∧
    (p.globals.map Binding.name).Perm metOutOfOrder.assignedNames ∧ p.globalSpace = 8 * p.globals.length ∧
    p.globals.map Binding.address = (List.range p.globals.length).map (fun i : Nat => 8 * (i : Int)) ∧
    q.globals.map Binding.name = metOutOfOrder.assignedNames ∧
    q.globals.map Binding.address = (List.range q.globals.length).map (fun i : Nat => (i : Int)) := by
  obtain ⟨p, hp⟩ := exists_of_isOk (m := .stack) (e := metOutOfOrder) (by decide +kernel)
  obtain ⟨q, hq⟩ := exists_of_isOk (m := .vector) (e := metOutOfOrder) (by decide +kernel)
  obtain ⟨hall, hstack, hothers⟩ := globals_exact metOutOfOrder
  obtain ⟨hperm, -, hspace⟩ := hall .stack p hp
  obtain ⟨hnames, -, haddresses⟩ := hothers .vector q (by decide) hq
  exact ⟨p, q, hp, hq, hperm, hspace, (hstack p hp).1, hnames, haddresses⟩

end ThreeMachines
