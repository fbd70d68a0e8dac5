/-
Depths and addresses in whole programs.

`Disciplined e p owner depth`: every instruction of the program belongs to the entry stream or to a routine (`owner`), and
finds the stack of its routine at one depth (`depth`). On every way from one instruction to the next the depth changes by
the effect of the instruction, and the way stays in the routine; frames are read and written only where they have words.

- `Annotation.disciplined`: the annotations of all streams of a program make such maps.
- `disciplined_of_segments`: a program of annotated pieces is disciplined.
-/
import ThreeMachines.Proofs.Depths
import ThreeMachines.Proofs.Placement

namespace ThreeMachines

variable {ι : Type} [Operation ι] [Framed ι]

/-- every instruction has its owner and its depth -/
structure Disciplined (e : Expr) (p : Program ι) (owner : Nat → Option Routine) (depth : Nat → Int) : Prop where
  start : owner (Image.ofProgram p).entry = none ∧ depth (Image.ofProgram p).entry = 0
  stop : owner (Image.ofProgram p).stop = none ∧ depth (Image.ofProgram p).stop = 1
  /-- a body is the stream of one routine, which begins at its label and does not run out of it -/
  body : ∀ body ∈ p.lambdas.bodies, ∃ start r, (Image.ofProgram p).target body.label = .ok start ∧
    r.entry = body.label ∧ r.params = body.params ∧ depth start = 0 ∧
    (∀ k, owner k = some r ↔ start ≤ k ∧ k < start + body.code.length) ∧
    ∃ last, body.code.getLast? = some last ∧ last.fallsThrough = false
  /-- a routine in the stream begins at its label -/
  inline : ∀ (k : Nat) (i : Instr ι) l, (Image.ofProgram p).instrs[k]? = some i → i.inline = some l →
    ∃ start r, (Image.ofProgram p).target l = .ok start ∧ r.entry = l ∧ owner start = some r ∧ depth start = 0
  /-- the next instruction has the same owner -/
  next : ∀ (k : Nat) (i : Instr ι), (Image.ofProgram p).instrs[k]? = some i → i.fallsThrough →
    owner (k + 1) = owner k ∧ depth (k + 1) = depth k + i.effect
  /-- a jump leads to the same owner in the same stream -/
  jump : ∀ (k : Nat) (i : Instr ι) l, (Image.ofProgram p).instrs[k]? = some i → i.jumpsTo = some l →
    ∃ k', (Image.ofProgram p).target l = .ok k' ∧ owner k' = owner k ∧ depth k' = depth k + i.effect ∧
      ((Image.ofProgram p).entry ≤ k' ↔ (Image.ofProgram p).entry ≤ k)
  nonneg : ∀ k, 0 ≤ depth k
  /-- a routine is left at one depth only -/
  returns : ∀ (k : Nat) (op : ι), (Image.ofProgram p).instrs[k]? = some (.own op) → Framed.returns op →
    ∃ r, owner k = some r ∧ depth k = Framed.exit ι r
  reaches : ∀ (k : Nat) (op : ι), (Image.ofProgram p).instrs[k]? = some (.own op) → Framed.Reaches (owner k) (depth k) op
  literal : ∀ k r, owner k = some r → r.OccursIn e

/-- annotations of all streams of a program -/
structure Annotation (e : Expr) (p : Program ι) where
  routine : LambdaBody ι → Routine
  spots : LambdaBody ι → List (Spot ι)
  main : List (Spot ι)
  /-- the routines that stand in the entry stream -/
  inMain : Routine → Prop
  checked : p.checkLabels = .ok ()
  entry : ∀ body ∈ p.lambdas.bodies, (routine body).entry = body.label
  params : ∀ body ∈ p.lambdas.bodies, (routine body).params = body.params
  literal : ∀ body ∈ p.lambdas.bodies, (routine body).OccursIn e
  instrs : ∀ body ∈ p.lambdas.bodies, (spots body).map Spot.instr = body.code
  flows : ∀ body ∈ p.lambdas.bodies, ∀ o d, Flows (some (routine body)) 0 (spots body) o d
  fits : ∀ body ∈ p.lambdas.bodies, ∀ x ∈ spots body, x.Fits (fun _ => False) (some (routine body)) (spots body)
  instrs_main : main.map Spot.instr = p.code
  flows_main : Flows none 0 main none 1
  fits_main : ∀ x ∈ main, x.Fits inMain none main
  literal_main : ∀ r, inMain r → r.OccursIn e ∧ ∀ body ∈ p.lambdas.bodies, r.entry ≠ body.label

namespace Annotation

variable {e : Expr} {p : Program ι} (N : Annotation e p) {k n i : Nat} {a : List (Spot ι)} {x : Spot ι}

/-- the annotations in the order of the image -/
def all : List (Spot ι) := p.lambdas.bodies.flatMap N.spots ++ N.main

def owner (k : Nat) : Option Routine := N.all[k]?.bind Spot.owner

def depth (k : Nat) : Int := (N.all[k]?.map Spot.depth).getD 1

/-- a stream and the place where it begins -/
inductive Stream : Nat → List (Spot ι) → Prop
  | body {before body after} : p.lambdas.bodies = before ++ body :: after →
    Stream (before.flatMap N.spots).length (N.spots body)
  | main : Stream (p.lambdas.bodies.flatMap N.spots).length N.main

theorem map_instr_flatMap {bodies : List (LambdaBody ι)} (h : bodies ⊆ p.lambdas.bodies) :
    (bodies.flatMap N.spots).map Spot.instr = bodies.flatMap LambdaBody.code := by
  induction bodies with
  | nil => rfl
  | cons body bodies ih =>
    rw [List.flatMap_cons, List.map_append, List.flatMap_cons, N.instrs body (h List.mem_cons_self),
      ih fun _ hb => h (List.mem_cons_of_mem _ hb)]

theorem length_flatMap {bodies : List (LambdaBody ι)} (h : bodies ⊆ p.lambdas.bodies) :
    (bodies.flatMap N.spots).length = (bodies.flatMap LambdaBody.code).length := by
  rw [← N.map_instr_flatMap h, List.length_map]

theorem entry_eq : (Image.ofProgram p).entry = (p.lambdas.bodies.flatMap N.spots).length := by
  rw [Image.entry_ofProgram, N.length_flatMap fun _ => id]

theorem map_instr_all : (Image.ofProgram p).instrs = (N.all.map Spot.instr).toArray := by
  rw [Image.instrs_ofProgram, all, List.map_append, N.map_instr_flatMap fun _ => id, N.instrs_main]

theorem instrs_eq (k : Nat) : (Image.ofProgram p).instrs[k]? = N.all[k]?.map Spot.instr := by
  rw [N.map_instr_all]
  simp

theorem exists_of_instrs {j : Instr ι} (h : (Image.ofProgram p).instrs[k]? = some j) :
    ∃ x, N.all[k]? = some x ∧ x.instr = j := by
  rw [N.instrs_eq] at h
  exact Option.map_eq_some_iff.1 h

theorem owner_of (h : N.all[k]? = some x) : N.owner k = x.owner := by rw [owner, h, Option.bind_some]

theorem depth_of (h : N.all[k]? = some x) : N.depth k = x.depth := by rw [depth, h, Option.map_some, Option.getD_some]

/-! ### Streams -/

theorem Stream.get (h : N.Stream n a) (hi : a[i]? = some x) : N.all[n + i]? = some x := by
  cases h with
  | main => rw [all, List.getElem?_append_right (Nat.le_add_right _ _), Nat.add_sub_cancel_left, hi]
  | @body before body after hb =>
    have hlt : i < (N.spots body).length := (List.getElem?_eq_some_iff.1 hi).1
    rw [all, hb, List.flatMap_append, List.flatMap_cons, List.append_assoc, List.append_assoc,
      List.getElem?_append_right (Nat.le_add_right _ _), Nat.add_sub_cancel_left, List.getElem?_append_left hlt, hi]

/-- every instruction lies in a stream -/
theorem exists_stream (h : N.all[k]? = some x) : ∃ n a i, N.Stream n a ∧ k = n + i ∧ a[i]? = some x := by
  by_cases hk : k < (p.lambdas.bodies.flatMap N.spots).length
  · have hfind : ∀ before after, p.lambdas.bodies = before ++ after →
        (before.flatMap N.spots).length ≤ k → k < (before.flatMap N.spots).length + (after.flatMap N.spots).length →
        ∃ n a i, N.Stream n a ∧ k = n + i ∧ i < a.length := by
      intro before after
      induction after generalizing before with
      | nil =>
        intro _ hle hlt
        rw [List.flatMap_nil, List.length_nil] at hlt
        omega
      | cons body after ih =>
        intro hsplit hle hlt
        by_cases hin : k < (before.flatMap N.spots).length + (N.spots body).length
        · exact ⟨_, _, k - (before.flatMap N.spots).length, .body hsplit, by omega, by omega⟩
        · refine ih (before ++ [body]) (by simpa using hsplit) ?_ ?_ <;>
            simp only [List.flatMap_append, List.flatMap_cons, List.flatMap_nil, List.append_nil,
              List.length_append] at hlt ⊢ <;>
            omega
    obtain ⟨n, a, i, hs, rfl, hi⟩ := hfind [] p.lambdas.bodies rfl (Nat.zero_le k) (by simpa using hk)
    have hget := hs.get N (List.getElem?_eq_getElem hi)
    rw [hget] at h
    exact ⟨n, a, i, hs, rfl, (List.getElem?_eq_getElem hi).trans h⟩
  · refine ⟨_, _, k - (p.lambdas.bodies.flatMap N.spots).length, .main, by omega, ?_⟩
    rwa [all, List.getElem?_append_right (by omega)] at h

theorem Stream.sound (h : N.Stream n a) (hx : x ∈ a) : x.Sound a := by
  cases h with
  | main => exact (N.fits_main x hx).1
  | @body before body after hb => exact (N.fits body (by simp [hb]) x hx).1

/-- a stream lies before the entry stream, or is that stream -/
theorem Stream.side {j : Nat} (h : N.Stream n a) (hi : i < a.length) (hj : j < a.length) :
    (Image.ofProgram p).entry ≤ n + j ↔ (Image.ofProgram p).entry ≤ n + i := by
  rw [N.entry_eq]
  cases h with
  | main => omega
  | @body before body after hb =>
    rw [hb, List.flatMap_append, List.flatMap_cons, List.length_append, List.length_append]
    omega

/-- a label among the spots of a stream names its place in the stream -/
theorem Stream.target {l : Label} {o : Option Routine} {d : Int} (h : N.Stream n a) (hm : ⟨.label l, o, d⟩ ∈ a) :
    ∃ j, j < a.length ∧ (Image.ofProgram p).target l = .ok (n + j) ∧ N.owner (n + j) = o ∧ N.depth (n + j) = d := by
  obtain ⟨j, hj⟩ := List.mem_iff_getElem?.1 hm
  have hget := h.get N hj
  refine ⟨j, (List.getElem?_eq_some_iff.1 hj).1, ?_, N.owner_of hget, N.depth_of hget⟩
  exact Image.wellLabelled_of_checkLabels N.checked _ _ (by rw [N.instrs_eq, hget]; rfl)

theorem stop_eq : (Image.ofProgram p).stop = N.all.length := by
  rw [Image.stop, N.map_instr_all]
  simp

theorem owner_stop : N.owner N.all.length = none := by
  rw [owner, List.getElem?_eq_none le_rfl]
  rfl

theorem depth_stop : N.depth N.all.length = 1 := by
  rw [depth, List.getElem?_eq_none le_rfl]
  rfl

/-- no stream runs out but the entry stream, at the end -/
theorem Stream.next (h : N.Stream n a) (hi : a[i]? = some x) (hx : x.instr.fallsThrough) :
    N.owner (n + i + 1) = x.owner ∧ N.depth (n + i + 1) = x.depth + x.instr.effect := by
  cases h with
  | main =>
    rcases N.flows_main.next hi hx with ⟨y, hy, ho, hd⟩ | ⟨hlast, ho, hd⟩
    · have hget := Stream.main.get N hy
      exact ⟨(N.owner_of hget).trans ho, (N.depth_of hget).trans hd⟩
    · have hstop : (p.lambdas.bodies.flatMap N.spots).length + i + 1 = N.all.length := by
        rw [all, List.length_append]
        omega
      rw [hstop, N.owner_stop, N.depth_stop]
      exact ⟨ho, hd⟩
  | @body before body after hb =>
    rcases (N.flows body (by simp [hb]) none (x.depth + x.instr.effect + 1)).next hi hx with
      ⟨y, hy, ho, hd⟩ | ⟨-, -, hd⟩
    · have hget := (Stream.body hb).get N hy
      exact ⟨(N.owner_of hget).trans ho, (N.depth_of hget).trans hd⟩
    · omega

/-! ### The discipline -/

theorem target_body {before after : List (LambdaBody ι)} {body : LambdaBody ι}
    (h : p.lambdas.bodies = before ++ body :: after) :
    (Image.ofProgram p).target body.label = .ok (before.flatMap N.spots).length := by
  have hsub : before ⊆ p.lambdas.bodies := fun b hb => by simp [h, hb]
  rw [N.length_flatMap hsub]
  exact Image.target_body N.checked h

/-- the spots of a body are those that its routine owns -/
theorem owner_iff {before after : List (LambdaBody ι)} {body : LambdaBody ι}
    (h : p.lambdas.bodies = before ++ body :: after) :
    N.owner k = some (N.routine body) ↔
      (before.flatMap N.spots).length ≤ k ∧ k < (before.flatMap N.spots).length + body.code.length := by
  have hbody : body ∈ p.lambdas.bodies := by simp [h]
  have hlength : body.code.length = (N.spots body).length := by rw [← N.instrs body hbody, List.length_map]
  constructor
  · intro ho
    obtain ⟨x, hx, hxo⟩ := Option.bind_eq_some_iff.1 ho
    obtain ⟨n, a, i, hs, rfl, hi⟩ := N.exists_stream hx
    have hmem : x ∈ a := List.mem_of_getElem? hi
    cases hs with
    | main =>
      rcases (N.fits_main x hmem).2 with hno | ⟨r, hr, hF⟩
      · rw [hno] at hxo
        cases hxo
      · rw [hr, Option.some.injEq] at hxo
        exact absurd (by rw [hxo, N.entry body hbody]) ((N.literal_main r hF).2 body hbody)
    | @body before' body' after' hb =>
      have hbody' : body' ∈ p.lambdas.bodies := by simp [hb]
      rcases (N.fits body' hbody' x hmem).2 with hown | ⟨-, -, hF⟩
      · rw [hown, Option.some.injEq] at hxo
        have hlabel : body'.label = body.label := by rw [← N.entry body' hbody', hxo, N.entry body hbody]
        have hstart := N.target_body hb
        rw [hlabel, N.target_body h, Except.ok.injEq] at hstart
        have hsame := Image.body_injective N.checked hbody' hbody hlabel
        subst hsame
        have := (List.getElem?_eq_some_iff.1 hi).1
        omega
      · exact hF.elim
  · rintro ⟨hle, hlt⟩
    have hi : k - (before.flatMap N.spots).length < (N.spots body).length := by omega
    have hget := (Stream.body h).get N (List.getElem?_eq_getElem hi)
    rw [Nat.add_sub_cancel' hle] at hget
    rw [N.owner_of hget]
    rcases (N.fits body hbody _ (List.getElem_mem hi)).2 with ho | ⟨-, -, hF⟩
    · exact ho
    · exact hF.elim

/-- the entry stream begins at depth 0 -/
theorem start_main : N.owner (Image.ofProgram p).entry = none ∧ N.depth (Image.ofProgram p).entry = 0 := by
  rw [N.entry_eq]
  cases hmain : N.main with
  | nil =>
    have hflows := N.flows_main
    rw [hmain] at hflows
    cases hflows
  | cons x rest =>
    have hget := Stream.main.get N (i := 0) (x := x) (by rw [hmain]; rfl)
    have hflows := N.flows_main
    rw [hmain] at hflows
    exact ⟨(N.owner_of hget).trans hflows.head.1, (N.depth_of hget).trans hflows.head.2⟩

/-- a body begins at depth 0 -/
theorem start_body {before after : List (LambdaBody ι)} {body : LambdaBody ι}
    (h : p.lambdas.bodies = before ++ body :: after) : N.depth (before.flatMap N.spots).length = 0 := by
  have hflows := N.flows body (by simp [h]) none 1
  cases hspots : N.spots body with
  | nil =>
    rw [hspots] at hflows
    cases hflows
  | cons x rest =>
    have hget := (Stream.body h).get N (i := 0) (x := x) (by rw [hspots]; rfl)
    rw [hspots] at hflows
    exact (N.depth_of hget).trans hflows.head.2

/-- a body does not run out -/
theorem last_body (N : Annotation e p) {body : LambdaBody ι} (hb : body ∈ p.lambdas.bodies) :
    ∃ last, body.code.getLast? = some last ∧ last.fallsThrough = false := by
  rw [← N.instrs body hb, List.getLast?_map]
  cases hlast : (N.spots body).getLast? with
  | none =>
    have hflows := N.flows body hb none 1
    rw [List.getLast?_eq_none_iff.1 hlast] at hflows
    cases hflows
  | some x =>
    refine ⟨x.instr, rfl, ?_⟩
    rw [List.getLast?_eq_getElem?] at hlast
    have hlt := (List.getElem?_eq_some_iff.1 hlast).1
    by_contra hx
    rcases (N.flows body hb none (x.depth + x.instr.effect + 1)).next hlast (by simpa using hx) with
      ⟨y, hy, -⟩ | ⟨-, -, hd⟩
    · have := (List.getElem?_eq_some_iff.1 hy).1
      omega
    · omega

/-- **Annotated programs** are disciplined. -/
theorem disciplined : Disciplined e p N.owner N.depth where
  start := N.start_main
  stop := by
    rw [N.stop_eq]
    exact ⟨N.owner_stop, N.depth_stop⟩
  body body hb := by
    obtain ⟨before, after, h⟩ := List.append_of_mem hb
    exact ⟨_, N.routine body, N.target_body h, N.entry body hb, N.params body hb, N.start_body h,
      fun k => N.owner_iff h, N.last_body hb⟩
  inline k j l hj hl := by
    obtain ⟨x, hx, rfl⟩ := N.exists_of_instrs hj
    obtain ⟨n, a, i, hs, rfl, hi⟩ := N.exists_stream hx
    obtain ⟨r, hr, hm⟩ := (hs.sound N (List.mem_of_getElem? hi)).inline l hl
    obtain ⟨j, -, ht, ho, hd⟩ := hs.target N hm
    exact ⟨n + j, r, ht, hr, ho, hd⟩
  next k j hj hf := by
    obtain ⟨x, hx, rfl⟩ := N.exists_of_instrs hj
    obtain ⟨n, a, i, hs, rfl, hi⟩ := N.exists_stream hx
    rw [N.owner_of hx, N.depth_of hx]
    exact hs.next N hi hf
  jump k j l hj hl := by
    obtain ⟨x, hx, rfl⟩ := N.exists_of_instrs hj
    obtain ⟨n, a, i, hs, rfl, hi⟩ := N.exists_stream hx
    obtain ⟨j, hlt, ht, ho, hd⟩ := hs.target N ((hs.sound N (List.mem_of_getElem? hi)).jumps l hl)
    rw [N.owner_of hx, N.depth_of hx]
    exact ⟨n + j, ht, ho, hd, hs.side N (List.getElem?_eq_some_iff.1 hi).1 hlt⟩
  nonneg k := by
    cases hx : N.all[k]? with
    | none => simp [depth, hx]
    | some x =>
      obtain ⟨n, a, i, hs, rfl, hi⟩ := N.exists_stream hx
      rw [N.depth_of hx]
      exact (hs.sound N (List.mem_of_getElem? hi)).nonneg
  returns k op hj hop := by
    obtain ⟨x, hx, hown⟩ := N.exists_of_instrs hj
    obtain ⟨n, a, i, hs, rfl, hi⟩ := N.exists_stream hx
    rw [N.owner_of hx, N.depth_of hx]
    exact (hs.sound N (List.mem_of_getElem? hi)).returns op hown hop
  reaches k op hj := by
    obtain ⟨x, hx, hown⟩ := N.exists_of_instrs hj
    obtain ⟨n, a, i, hs, rfl, hi⟩ := N.exists_stream hx
    rw [N.owner_of hx, N.depth_of hx]
    exact (hs.sound N (List.mem_of_getElem? hi)).reaches op hown
  literal k r ho := by
    obtain ⟨x, hx, hxo⟩ := Option.bind_eq_some_iff.1 ho
    obtain ⟨n, a, i, hs, rfl, hi⟩ := N.exists_stream hx
    have hmem : x ∈ a := List.mem_of_getElem? hi
    cases hs with
    | main =>
      rcases (N.fits_main x hmem).2 with hno | ⟨r', hr, hF⟩
      · rw [hno] at hxo
        cases hxo
      · obtain rfl := Option.some.inj (hr.symm.trans hxo)
        exact (N.literal_main r' hF).1
    | @body before body after hb =>
      have hbody : body ∈ p.lambdas.bodies := by simp [hb]
      rcases (N.fits body hbody x hmem).2 with hr | ⟨-, -, hF⟩
      · obtain rfl := Option.some.inj (hr.symm.trans hxo)
        exact N.literal body hbody
      · exact hF.elim

end Annotation

/-- **Disciplined programs.** It suffices that every body is one of a routine, and that the entry stream leads from depth 0
to depth 1. -/
theorem disciplined_of_segments {e : Expr} {p : Program ι} {F : Routine → Prop} (hc : p.checkLabels = .ok ())
    (hbodies : ∀ body ∈ p.lambdas.bodies, FromLiteral e body)
    (hmain : Segment F none p.code 0 1)
    (hF : ∀ r, F r → r.OccursIn e ∧ ∀ body ∈ p.lambdas.bodies, r.entry ≠ body.label) :
    ∃ owner depth, Disciplined e p owner depth := by
  have hroutine : ∀ body : LambdaBody ι, ∃ r, body ∈ p.lambdas.bodies → r.entry = body.label ∧ r.params = body.params ∧
      r.OccursIn e ∧ BodyOf r body.code := fun body => by
    by_cases hb : body ∈ p.lambdas.bodies
    · obtain ⟨r, hr⟩ := hbodies body hb
      exact ⟨r, fun _ => hr⟩
    · exact ⟨⟨body.label, [], []⟩, fun h => absurd h hb⟩
  choose routine hroutine using hroutine
  have hspots : ∀ body : LambdaBody ι, ∃ A : List (Spot ι), body ∈ p.lambdas.bodies → A.map Spot.instr = body.code ∧
      (∀ o d, Flows (some (routine body)) 0 A o d) ∧ ∀ x ∈ A, x.Fits (fun _ => False) (some (routine body)) A :=
    fun body => by
      by_cases hb : body ∈ p.lambdas.bodies
      · obtain ⟨A, hA⟩ := (hroutine body hb).2.2.2
        exact ⟨A, fun _ => hA⟩
      · exact ⟨[], fun h => absurd h hb⟩
  choose spots hspots using hspots
  obtain ⟨main, hmain, hflows, hfits⟩ := hmain
  let N : Annotation e p :=
    { routine, spots, main, inMain := F, checked := hc
      entry := fun body hb => (hroutine body hb).1
      params := fun body hb => (hroutine body hb).2.1
      literal := fun body hb => (hroutine body hb).2.2.1
      instrs := fun body hb => (hspots body hb).1
      flows := fun body hb => (hspots body hb).2.1
      fits := fun body hb => (hspots body hb).2.2
      instrs_main := hmain
      flows_main := hflows
      fits_main := hfits
      literal_main := hF }
  exact ⟨_, _, N.disciplined⟩

end ThreeMachines
