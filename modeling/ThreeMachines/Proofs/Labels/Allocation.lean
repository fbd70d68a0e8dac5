/-
The labels that an allocator issues.

The spelling of a label gives its kind and its number back: the digits after the last underscore are the number
(`Label.numbered_inj`). An allocator counts the labels of each kind, so it never issues a label twice.

- `LabelAllocator.Between a b l`: the label `l` has been issued on the way from `a` to `b`, told by the two counts.
- `LabelAllocator.Issues a ls b`: the labels `ls`, in this order, lead from `a` to `b`. They are different
  (`Issues.nodup`), and they are the labels between `a` and `b` (`Issues.mem_iff`).
-/
import ThreeMachines.Code.Label
import ThreeMachines.Proofs.Texts

namespace ThreeMachines

namespace Label

variable {kind kind' : String} {n n' : Nat}

theorem toList_numbered (kind : String) (n : Nat) :
    (numbered kind n).text.toList = kind.toList ++ '_' :: Nat.toDigits 10 n := by
  simp [numbered]

theorem underscore_not_mem_digits (n : Nat) : '_' ∉ Nat.toDigits 10 n := by
  intro h
  exact absurd (isDigit_of_mem_toDigits h) (by decide)

/-- **Spelling.** Labels of different kinds or numbers are spelled differently. -/
theorem numbered_inj : numbered kind n = numbered kind' n' ↔ kind = kind' ∧ n = n' := by
  refine ⟨fun h => ?_, by rintro ⟨rfl, rfl⟩; rfl⟩
  have hlist := congrArg (fun l => l.text.toList) h
  simp only [toList_numbered] at hlist
  obtain ⟨hkind, hdigits⟩ := cut_last_inj (underscore_not_mem_digits n) (underscore_not_mem_digits n') hlist
  exact ⟨String.toList_inj.1 hkind, toDigits_inj hdigits⟩

/-- a label ends in a digit -/
theorem numbered_ne {text : String} {c : Char} (hlast : text.toList.getLast? = some c) (hc : c.isDigit = false) :
    numbered kind n ≠ ⟨text⟩ := by
  rintro h
  have hlist : (numbered kind n).text.toList = text.toList := congrArg (fun l => l.text.toList) h
  rw [← hlist, toList_numbered, List.getLast?_append, List.getLast?_cons, Option.some_or, Option.some.injEq] at hlast
  have hmem : c ∈ Nat.toDigits 10 n := by
    rw [← hlast, List.getLast?_eq_some_getLast Nat.toDigits_ne_nil, Option.getD_some]
    exact List.getLast_mem _
  rw [isDigit_of_mem_toDigits hmem] at hc
  cases hc

end Label

namespace LabelAllocator

variable {a b c : LabelAllocator} {l : Label} {ls ms : List Label} {kind other : String}

theorem lookup_bump (counters : List (String × Nat)) (kind other : String) :
    ((bump kind counters).lookup other).getD 0 =
      if other = kind then (counters.lookup kind).getD 0 + 1 else (counters.lookup other).getD 0 := by
  induction counters with
  | nil =>
    rw [bump, List.lookup_cons, List.lookup_nil]
    by_cases h : other = kind
    · simp [h]
    · simp [h, beq_false_of_ne h]
  | cons counter rest ih =>
    obtain ⟨first, n⟩ := counter
    rw [bump]
    by_cases hfirst : first = kind
    · subst hfirst
      by_cases h : other = first <;> simp [List.lookup_cons, h, beq_false_of_ne]
    · rw [if_neg hfirst, List.lookup_cons, List.lookup_cons, List.lookup_cons, beq_false_of_ne (Ne.symm hfirst)]
      by_cases h : other = first
      · simp [h, hfirst]
      · rw [beq_false_of_ne h]
        exact ih

@[simp] theorem fresh_fst (a : LabelAllocator) (kind : String) : (a.fresh kind).1 = .numbered kind (a.count kind) := rfl

/-- a fresh label adds one to the count of its kind -/
theorem count_fresh (a : LabelAllocator) (kind other : String) :
    (a.fresh kind).2.count other = if other = kind then a.count kind + 1 else a.count other :=
  lookup_bump a.counters kind other

/-- the label has been issued on the way from `a` to `b` -/
def Between (a b : LabelAllocator) (l : Label) : Prop :=
  ∃ kind n, l = .numbered kind n ∧ a.count kind ≤ n ∧ n < b.count kind

/-- the labels lead from `a` to `b` -/
def Issues (a : LabelAllocator) (ls : List Label) (b : LabelAllocator) : Prop :=
  ∃ kinds, a.freshGroup kinds = (ls, b)

theorem freshGroup_cons (a : LabelAllocator) (kind : String) (kinds : List String) :
    a.freshGroup (kind :: kinds) =
      ((a.fresh kind).1 :: ((a.fresh kind).2.freshGroup kinds).1, ((a.fresh kind).2.freshGroup kinds).2) := rfl

namespace Issues

theorem refl (a : LabelAllocator) : Issues a [] a := ⟨[], rfl⟩

theorem fresh (a : LabelAllocator) (kind : String) : Issues a [(a.fresh kind).1] (a.fresh kind).2 := ⟨[kind], rfl⟩

theorem nil_iff : Issues a [] b ↔ b = a := by
  refine ⟨fun ⟨kinds, h⟩ => ?_, fun h => h ▸ refl a⟩
  cases kinds with
  | nil => exact (Prod.mk.inj h).2.symm
  | cons kind kinds =>
    rw [freshGroup_cons] at h
    exact absurd (Prod.mk.inj h).1 (List.cons_ne_nil _ _)

theorem cons_iff : Issues a (l :: ls) c ↔ ∃ kind, (a.fresh kind).1 = l ∧ Issues (a.fresh kind).2 ls c := by
  constructor
  · rintro ⟨kinds, h⟩
    cases kinds with
    | nil => cases h
    | cons kind kinds =>
      rw [freshGroup_cons, Prod.mk.injEq, List.cons.injEq] at h
      obtain ⟨⟨hl, hls⟩, hc⟩ := h
      exact ⟨kind, hl, kinds, Prod.ext hls hc⟩
  · rintro ⟨kind, rfl, kinds, h⟩
    exact ⟨kind :: kinds, by rw [freshGroup_cons, h]⟩

theorem trans (h : Issues a ls b) (h' : Issues b ms c) : Issues a (ls ++ ms) c := by
  induction ls generalizing a with
  | nil =>
    obtain rfl := nil_iff.1 h
    exact h'
  | cons l ls ih =>
    obtain ⟨kind, rfl, hrest⟩ := cons_iff.1 h
    exact cons_iff.2 ⟨kind, rfl, ih hrest⟩

theorem count_le (h : Issues a ls b) (kind : String) : a.count kind ≤ b.count kind := by
  induction ls generalizing a with
  | nil =>
    obtain rfl := nil_iff.1 h
    exact le_rfl
  | cons l ls ih =>
    obtain ⟨other, rfl, hrest⟩ := cons_iff.1 h
    refine le_trans ?_ (ih hrest)
    rw [count_fresh]
    split
    · rename_i hkind
      subst hkind
      exact Nat.le_succ _
    · exact le_rfl

/-- the labels on the way are those that the counts tell -/
theorem mem_iff (h : Issues a ls b) : l ∈ ls ↔ Between a b l := by
  induction ls generalizing a with
  | nil =>
    obtain rfl := nil_iff.1 h
    refine ⟨fun hl => absurd hl List.not_mem_nil, ?_⟩
    rintro ⟨kind, n, -, hle, hlt⟩
    omega
  | cons first ls ih =>
    obtain ⟨kind, rfl, hrest⟩ := cons_iff.1 h
    have hcount := count_fresh a kind
    have hle := hrest.count_le kind
    rw [hcount, if_pos rfl] at hle
    rw [List.mem_cons, ih hrest, fresh_fst]
    constructor
    · rintro (rfl | ⟨other, n, rfl, hn, hlt⟩)
      · exact ⟨kind, _, rfl, le_rfl, hle⟩
      · refine ⟨other, n, rfl, ?_, hlt⟩
        rw [hcount] at hn
        split at hn
        · rename_i hother
          subst hother
          omega
        · exact hn
    · rintro ⟨other, n, rfl, hn, hlt⟩
      -- of the kind that was asked for, the first label has the number of the old count
      by_cases hfirst : other = kind ∧ n = a.count kind
      · exact .inl (by rw [hfirst.1, hfirst.2])
      · refine .inr ⟨other, n, rfl, ?_, hlt⟩
        rw [hcount]
        split
        · rename_i hother
          subst hother
          have : n ≠ a.count other := fun hna => hfirst ⟨rfl, hna⟩
          omega
        · exact hn

/-- **Labels are fresh.** No label is issued twice. -/
theorem nodup (h : Issues a ls b) : ls.Nodup := by
  induction ls generalizing a with
  | nil => exact List.nodup_nil
  | cons first ls ih =>
    obtain ⟨kind, rfl, hrest⟩ := cons_iff.1 h
    refine List.nodup_cons.2 ⟨fun hmem => ?_, ih hrest⟩
    obtain ⟨other, n, hl, hn, -⟩ := hrest.mem_iff.1 hmem
    obtain ⟨rfl, rfl⟩ := Label.numbered_inj.1 hl
    rw [count_fresh, if_pos rfl] at hn
    omega

/-- what is issued later is different from what was issued before -/
theorem disjoint (h : Issues a ls b) (h' : Issues b ms c) : List.Disjoint ls ms :=
  List.disjoint_of_nodup_append (h.trans h').nodup

end Issues
end LabelAllocator
end ThreeMachines
