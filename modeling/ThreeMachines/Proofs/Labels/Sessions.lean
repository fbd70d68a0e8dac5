/-
Labels of the programs of one session.

A session goes on from one generation to the next, also after a failure. A generation issues labels, so counts only grow
(`account_inSession`, `count_le_before`), and a program defines just the labels of its own generation.

- `labels_intact`: every program of a session passes its check, its unit is linked, and it has no label in common with
  another program of the session.
-/
import ThreeMachines.Proofs.Stack.Labels
import ThreeMachines.Proofs.Closure.Labels
import ThreeMachines.Proofs.Vector.Labels

namespace ThreeMachines

open LabelAllocator (Between Issues)

theorem accounts_generate (m : Machine) (e : Expr) : Gen.Accounts (generate m e) := by
  cases m with
  | stack => exact Stack.accounts_generate e
  | closure => exact Closure.accounts_generate e
  | vector => exact Vector.accounts_generate e

theorem links (m : Machine) : Native.Links m.Op := by
  cases m with
  | stack => exact Stack.links
  | closure => exact Closure.links
  | vector => exact Vector.links

namespace Program

variable {ι : Type} [Operation ι] {p : Program ι}

/-- the labels that a program defines or names -/
def labels (p : Program ι) : List Label := p.definitions ++ p.instructions.filterMap Instr.references

theorem checkLabels_ok (hdistinct : p.definitions.Nodup) (hnamed : ∀ l ∈ namedIn p.instructions, l ∈ p.definitions) :
    p.checkLabels = .ok () := by
  have htwice : p.definitions.find? (fun l => 1 < p.definitions.count l) = none :=
    List.find?_eq_none.2 fun l _ => by simpa using List.nodup_iff_count_le_one.1 hdistinct l
  have hmissing : (p.instructions.filterMap Instr.references).find? (fun l => !p.definitions.contains l) = none :=
    List.find?_eq_none.2 fun l hl => by simpa using hnamed l hl
  simp only [checkLabels, htwice, hmissing]

end Program

/-- a request to generate the program of an expression, in a session, and what came of it -/
structure Generation where
  machine : Machine
  expr : Expr
  before : Session
  outcome : Except CompileError (Program machine.Op)
  after : Session

/-- generations one after the other; each goes on in the session that the one before it left -/
def generations (s : Session) : List (Machine × Expr) → List Generation
  | [] => []
  | (m, e) :: rest =>
    let (outcome, after) := Gen.inSession s (generate m e)
    ⟨m, e, s, outcome, after⟩ :: generations after rest

/-- the labels of a program that was generated are in order -/
structure Generation.Intact (g : Generation) (p : Program g.machine.Op) : Prop where
  checked : p.checkLabels = .ok ()
  /-- it defines each label that was issued for it once, and no other -/
  defined : ∀ l, p.definitions.count l = 1 ↔ Between g.before.labels g.after.labels l
  once : ∀ l, p.definitions.count l ≤ 1
  linked : Native.Linked (Native.unit p)

/-- what one generation does to the labels of its session -/
theorem account_inSession (s : Session) (m : Machine) (e : Expr) :
    ∃ ls, Issues s.labels ls (Gen.inSession s (generate m e)).2.labels ∧
      ∀ p, (Gen.inSession s (generate m e)).1 = .ok p → p.definitions.Perm ls ∧ ∀ l ∈ namedIn p.instructions, l ∈ ls := by
  have haccount := accounts_generate m e
  rw [Gen.inSession, EStateM.run]
  cases hrun : generate m e ⟨s, .empty, .empty⟩ with
  | ok p d =>
    obtain ⟨ls, hls, hp⟩ := haccount.ok rfl hrun
    refine ⟨ls, hls, ?_⟩
    rintro p' ⟨⟩
    exact hp
  | error err d =>
    obtain ⟨ls, hls⟩ := haccount.issues ⟨s, .empty, .empty⟩
    rw [hrun] at hls
    exact ⟨ls, hls, fun _ hp => by cases hp⟩

section
variable {s : Session} {requests : List (Machine × Expr)} {g : Generation}

/-- a generation of a session is one step of it -/
theorem step_of_mem (h : g ∈ generations s requests) :
    g.outcome = (Gen.inSession g.before (generate g.machine g.expr)).1 ∧
      g.after = (Gen.inSession g.before (generate g.machine g.expr)).2 := by
  induction requests generalizing s with
  | nil => exact absurd h List.not_mem_nil
  | cons request rest ih =>
    rcases List.mem_cons.1 h with rfl | h
    · exact ⟨rfl, rfl⟩
    · exact ih h

/-- counts grow from the beginning of a session to each of its generations -/
theorem count_le_before (h : g ∈ generations s requests) (kind : String) :
    s.labels.count kind ≤ g.before.labels.count kind := by
  induction requests generalizing s with
  | nil => exact absurd h List.not_mem_nil
  | cons request rest ih =>
    rcases List.mem_cons.1 h with rfl | h
    · exact le_rfl
    · obtain ⟨ls, hls, -⟩ := account_inSession s request.1 request.2
      exact (hls.count_le kind).trans (ih h)

/-- the labels of a program are those of its generation -/
theorem account_of_mem (h : g ∈ generations s requests) {p : Program g.machine.Op} (hp : g.outcome = .ok p) :
    ∃ ls, Issues g.before.labels ls g.after.labels ∧ p.definitions.Perm ls ∧ ∀ l ∈ namedIn p.instructions, l ∈ ls := by
  obtain ⟨houtcome, hafter⟩ := step_of_mem h
  obtain ⟨ls, hls, haccount⟩ := account_inSession g.before g.machine g.expr
  rw [← hafter] at hls
  exact ⟨ls, hls, haccount p (by rw [← houtcome, hp])⟩

theorem between_of_mem_labels (h : g ∈ generations s requests) {p : Program g.machine.Op} (hp : g.outcome = .ok p)
    {l : Label} (hl : l ∈ p.labels) : Between g.before.labels g.after.labels l := by
  obtain ⟨ls, hls, hdefined, hnamed⟩ := account_of_mem h hp
  refine hls.mem_iff.1 ?_
  rcases List.mem_append.1 hl with hl | hl
  · exact hdefined.subset hl
  · exact hnamed l hl

theorem intact_of_mem (h : g ∈ generations s requests) {p : Program g.machine.Op} (hp : g.outcome = .ok p) :
    g.Intact p := by
  obtain ⟨ls, hls, hdefined, hnamed⟩ := account_of_mem h hp
  have hdistinct : p.definitions.Nodup := hdefined.nodup_iff.2 hls.nodup
  have hnamed' : ∀ l ∈ namedIn p.instructions, l ∈ p.definitions := fun l hl => hdefined.mem_iff.2 (hnamed l hl)
  have hspelled : ∀ l ∈ p.definitions, ∃ kind n, l = .numbered kind n := fun l hl => by
    obtain ⟨kind, n, hl, -⟩ := hls.mem_iff.1 (hdefined.subset hl)
    exact ⟨kind, n, hl⟩
  refine ⟨Program.checkLabels_ok hdistinct hnamed', fun l => ?_, List.nodup_iff_count_le_one.1 hdistinct,
    Native.linked_unit (links g.machine) hdistinct hspelled hnamed'⟩
  rw [← hls.mem_iff, ← hdefined.mem_iff]
  refine ⟨fun hcount => List.count_pos_iff.1 (by omega), fun hl => ?_⟩
  exact List.count_eq_one_of_mem hdistinct hl

/-- **Label integrity.** Whatever is generated in a session, on whatever machines, with or without success: each program
passes its check, defines the labels that were issued for it once, and its unit is linked; no two programs have a label
in common. -/
theorem labels_intact (s : Session) (requests : List (Machine × Expr)) :
    (∀ g ∈ generations s requests, ∀ p, g.outcome = .ok p → g.Intact p) ∧
      (generations s requests).Pairwise fun g g' => ∀ p p', g.outcome = .ok p → g'.outcome = .ok p' →
        List.Disjoint p.labels p'.labels := by
  refine ⟨fun g hg p hp => intact_of_mem hg hp, ?_⟩
  induction requests generalizing s with
  | nil => exact .nil
  | cons request rest ih =>
    refine List.pairwise_cons.2 ⟨fun g' hg' p p' hp hp' l hl hl' => ?_, ih _⟩
    have hlabel := between_of_mem_labels (show _ ∈ generations s (request :: rest) from List.mem_cons_self) hp hl
    obtain ⟨kind, n, rfl, hn, hlt⟩ := hlabel
    obtain ⟨kind', n', hl', hn', -⟩ := between_of_mem_labels hg' hp' hl'
    obtain ⟨rfl, rfl⟩ := Label.numbered_inj.1 hl'
    exact absurd hlt (Nat.not_lt.2 ((count_le_before hg' kind).trans hn'))

end

/-- a function, a name that stands for nothing, and the function again -/
def afterFailure : List (Machine × Expr) :=
  [(.closure, .lambda ["x"] (.var "x")), (.vector, .var "y"), (.vector, .lambda ["x"] (.var "x"))]

/-- the label of the last program goes on from that of the first, past the failure between them -/
theorem labels_intact_afterFailure :
    (generations .new afterFailure).map (fun g => g.outcome.toOption.map Program.definitions) =
      [some [⟨"fun_0"⟩], none, some [⟨"fun_1"⟩]] ∧
    (∀ g ∈ generations .new afterFailure, ∀ p, g.outcome = .ok p → g.Intact p) ∧
    (generations .new afterFailure).Pairwise fun g g' => ∀ p p', g.outcome = .ok p → g'.outcome = .ok p' →
      List.Disjoint p.labels p'.labels :=
  ⟨by decide +kernel, labels_intact .new afterFailure⟩

end ThreeMachines
