/-
Listings of the programs of sources.

The programs that are generated for sources are legible: their labels were issued, so they are of the known kinds; what
is bound and what bodies come with are names of the source. So a listing tells the program (`Program.listing_inj`),
whatever sessions it was generated in.

- `listing_lossless`: two programs of sources for one machine that have the same listing are the same, and each can be
  decoded from its listing.
-/
import ThreeMachines.Proofs.Closure.Names
import ThreeMachines.Proofs.Failures.Programs
import ThreeMachines.Proofs.Labels.Sessions
import ThreeMachines.Proofs.Listings.Programs
import ThreeMachines.Proofs.Stack.Names
import ThreeMachines.Proofs.Vector.Names

namespace ThreeMachines

/-! ## Labels -/

/-- labels of the known kinds are spelled like names, with an underscore before the number -/
theorem Label.legible_numbered {kind : String} (h : kind ∈ kinds) (n : Nat) : (numbered kind n).Legible := by
  have hletters : kinds.all fun kind => kind.toList.all isNamePart := by decide
  refine ⟨fun c hc => ?_, by simp [toList_numbered]⟩
  rw [toList_numbered] at hc
  rcases List.mem_append.1 hc with hc | hc
  · exact List.all_eq_true.1 (List.all_eq_true.1 hletters kind h) c hc
  · rcases List.mem_cons.1 hc with rfl | hc
    · rfl
    · simp [isNamePart, Char.isAlphanum, isDigit_of_mem_toDigits hc]

/-! ## Globals -/

namespace ScopeTable

variable {t : ScopeTable} {b : Binding}

theorem mem_insertByAddress {a : Binding} {sorted : List Binding} (h : b ∈ insertByAddress a sorted) :
    b = a ∨ b ∈ sorted := by
  induction sorted with
  | nil => exact .inl (List.mem_singleton.1 h)
  | cons other rest ih =>
    rw [insertByAddress] at h
    split at h
    · exact List.mem_cons.1 h
    · rcases List.mem_cons.1 h with rfl | h
      · exact .inr List.mem_cons_self
      · exact (ih h).imp_right (List.mem_cons_of_mem _)

theorem mem_foldl_insertByAddress {bindings sorted : List Binding}
    (h : b ∈ bindings.foldl (fun sorted b => insertByAddress b sorted) sorted) : b ∈ bindings ∨ b ∈ sorted := by
  induction bindings generalizing sorted with
  | nil => exact .inr h
  | cons first rest ih =>
    rcases ih h with h | h
    · exact .inl (List.mem_cons_of_mem _ h)
    · rcases mem_insertByAddress h with rfl | h
      · exact .inl List.mem_cons_self
      · exact .inr h

/-- a global is bound in some frame, as a global -/
theorem mem_globals (h : b ∈ t.globals) : b.storage = .global ∧ ∃ f ∈ t.frames, ∃ x, (x, Slot.bound b) ∈ f.slots := by
  unfold globals at h
  rcases mem_foldl_insertByAddress h with h | h
  · rw [List.mem_reverse, List.mem_filterMap] at h
    obtain ⟨⟨x, slot⟩, hslot, hb⟩ := h
    cases hlast : t.frames.getLast? with
    | none =>
      rw [hlast] at hslot
      cases hslot
    | some f =>
      rw [hlast] at hslot
      cases slot with
      | declared => cases hb
      | bound b' =>
        simp only at hb
        split at hb
        · rename_i hglobal
          cases hb
          exact ⟨hglobal, f, List.mem_of_getLast? hlast, x, hslot⟩
        · cases hb
  · cases h

end ScopeTable

/-! ## Programs of sources -/

variable {m : Machine} {e : Expr} {s : Session} {p q : Program m.Op}

theorem keepsNames_generate (m : Machine) (h : e.wellFormed) : Gen.KeepsNames (generate m e) := by
  cases m with
  | stack => exact Stack.keepsNames_generate h
  | closure => exact Closure.keepsNames_generate h
  | vector => exact Vector.keepsNames_generate h

theorem reports_generate (m : Machine) (e : Expr) : Gen.Reports (generate m e) := by
  cases m with
  | stack => exact Stack.reports_generate e
  | closure => exact Closure.reports_generate e
  | vector => exact Vector.reports_generate e

/-- the program that is generated for a well-formed expression is legible -/
theorem legible_inSession (he : e.wellFormed) (h : (Gen.inSession s (generate m e)).1 = .ok p) : p.Legible := by
  obtain ⟨ls, hissues, haccount⟩ := account_inSession s m e
  obtain ⟨hdefined, hnamed⟩ := haccount p h
  rw [Gen.inSession, EStateM.run] at h hissues
  cases hrun : generate m e ⟨s, .empty, .empty⟩ with
  | error er d =>
    rw [hrun] at h
    cases h
  | ok p' d =>
    rw [hrun] at h hissues
    cases h
    obtain ⟨hkinds, hnames⟩ := keepsNames_generate m he hrun
    obtain ⟨hglobals, hbodies⟩ := reports_generate m e hrun
    have hd : d.Named := hnames (Draft.named_initial s)
    have hissued {l : Label} (hl : l ∈ ls) : l.Legible := by
      obtain ⟨kind, n, rfl, hle, hlt⟩ := hissues.mem_iff.1 hl
      refine Label.legible_numbered ?_ n
      by_contra hkind
      exact absurd (hlt.trans_eq (hkinds kind hkind)) (not_lt.2 hle)
    have hinstr {i : Instr m.Op} (hi : i ∈ p.instructions) : i.Legible := by
      constructor
      · intro l hl
        exact hissued (hdefined.subset (List.mem_append_left _ (List.mem_filterMap.2 ⟨i, hi, hl⟩)))
      · intro l hl
        exact hissued (hnamed l (List.mem_filterMap.2 ⟨i, hi, hl⟩))
    refine ⟨fun i hi => hinstr (List.mem_append_left _ hi), fun body hbody => ?_, fun b hb => ?_⟩
    · obtain ⟨hparams, hcaptures⟩ := hd.bodies body (hbodies hbody)
      refine ⟨?_, hparams, hcaptures, fun i hi => ?_⟩
      · exact hissued (hdefined.subset (List.mem_append_right _ (List.mem_map_of_mem hbody)))
      · exact hinstr (List.mem_append_right _ (List.mem_flatMap.2 ⟨body, hbody, hi⟩))
    · rw [hglobals] at hb
      obtain ⟨hglobal, f, hf, x, hslot⟩ := ScopeTable.mem_globals hb
      exact ⟨hd.bound f hf x b hslot, hglobal⟩

/-- the program of a source, generated in a session of its own or with others before it -/
def Compiled (m : Machine) (p : Program m.Op) : Prop :=
  ∃ source e s, Expr.parse source = .ok e ∧ (Gen.inSession s (generate m e)).1 = .ok p

theorem compiled_of_compile {source : String} (hsource : Expr.parse source = .ok e) (h : compile m e = .ok p) :
    Compiled m p := by
  obtain ⟨d, hgen, -⟩ := generate_of_compile h
  refine ⟨source, e, .new, hsource, ?_⟩
  rw [Gen.inSession, EStateM.run, hgen]

theorem Compiled.legible (h : Compiled m p) : p.Legible := by
  obtain ⟨source, e, s, hsource, hp⟩ := h
  exact legible_inSession (wellFormed_of_parse hsource) hp

/-- **Listings.** Two programs of sources for one machine that have the same listing are the same: in their code, their
bodies with labels, parameters and captures, and their globals. So each can be decoded from its listing. -/
theorem listing_lossless (m : Machine) :
    (∀ p q : Program m.Op, Compiled m p → Compiled m q → p.listing = q.listing → p = q) ∧
      ∃ decode : String → Option (Program m.Op), ∀ p, Compiled m p → decode p.listing = some p := by
  classical
  have hinj (p q : Program m.Op) (hp : Compiled m p) (hq : Compiled m q) (h : p.listing = q.listing) : p = q :=
    Program.listing_inj hp.legible hq.legible h
  refine ⟨hinj, fun text => if h : ∃ q, Compiled m q ∧ q.listing = text then some h.choose else none, fun p hp => ?_⟩
  have hexists : ∃ q, Compiled m q ∧ q.listing = p.listing := ⟨p, hp, rfl⟩
  obtain ⟨hq, hlisting⟩ := hexists.choose_spec
  refine (dif_pos hexists).trans ?_
  rw [hinj _ p hq hp hlisting]

/-- a function without an `else`, and one that spells it out -/
theorem listing_lossless_elseBranch : ∃ (e e' : Expr) (p q : Program Machine.vector.Op),
    Expr.parse "x := 1; (y) -> if y then x" = .ok e ∧ Expr.parse "x := 1; (y) -> if y then x else 0" = .ok e' ∧
    e ≠ e' ∧ compile .vector e = .ok p ∧ compile .vector e' = .ok q ∧ p.listing = q.listing ∧ p = q := by
  let without : Expr := .seq [.assign "x" (.number 1), .lambda ["y"] (.ite (.var "y") (.var "x") none)]
  let spelledOut : Expr := .seq [.assign "x" (.number 1), .lambda ["y"] (.ite (.var "y") (.var "x") (some (.number 0)))]
  have hsource : Expr.parse "x := 1; (y) -> if y then x" = .ok without := by with_unfolding_all rfl
  have hsource' : Expr.parse "x := 1; (y) -> if y then x else 0" = .ok spelledOut := by with_unfolding_all rfl
  obtain ⟨p, hp⟩ := exists_of_isOk (m := .vector) (e := without) (by decide +kernel)
  obtain ⟨q, hq⟩ := exists_of_isOk (m := .vector) (e := spelledOut) (by decide +kernel)
  have hlisting : p.listing = q.listing := by
    have hmap : (compile .vector without).map Program.listing = (compile .vector spelledOut).map Program.listing := by
      decide +kernel
    rw [hp, hq] at hmap
    exact Except.ok.inj hmap
  refine ⟨without, spelledOut, p, q, hsource, hsource', ?_, hp, hq, hlisting, ?_⟩
  · simp [without, spelledOut]
  · exact (listing_lossless .vector).1 p q (compiled_of_compile hsource hp) (compiled_of_compile hsource' hq) hlisting

/-- one parameter with a comma in its name, which no source spells, is listed like two -/
theorem listing_commaInName : ∃ p q : Program Machine.vector.Op,
    compile .vector (.lambda ["a, b"] (.number 1)) = .ok p ∧
    compile .vector (.lambda ["a", "b"] (.number 1)) = .ok q ∧ p.listing = q.listing ∧ p ≠ q := by
  obtain ⟨p, hp⟩ := exists_of_isOk (m := .vector) (e := .lambda ["a, b"] (.number 1)) (by decide +kernel)
  obtain ⟨q, hq⟩ := exists_of_isOk (m := .vector) (e := .lambda ["a", "b"] (.number 1)) (by decide +kernel)
  refine ⟨p, q, hp, hq, ?_, ?_⟩
  · have hmap : (compile .vector (.lambda ["a, b"] (.number 1))).map Program.listing =
        (compile .vector (.lambda ["a", "b"] (.number 1))).map Program.listing := by
      decide +kernel
    rw [hp, hq] at hmap
    exact Except.ok.inj hmap
  · rintro rfl
    let params (p : Program Machine.vector.Op) := p.lambdas.bodies.map LambdaBody.params
    have hparams : (compile .vector (.lambda ["a, b"] (.number 1))).map params ≠
        (compile .vector (.lambda ["a", "b"] (.number 1))).map params := by
      decide +kernel
    rw [hp, hq] at hparams
    exact hparams rfl

end ThreeMachines
