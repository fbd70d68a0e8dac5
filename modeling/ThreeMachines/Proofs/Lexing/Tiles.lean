/-
Where the tokens of a text stand.

`Tiles before front ts after` says that the tokens `ts` cover `front`, which stands between `before` and `after`: trivia,
then a piece of text that spells the token and is longest where it stands, and so on; the span of each token is the place
of its piece. A text has the tokens that cover it up to the trivia before its end, and then its end (`Token.scan_eq_ok_iff`).
`Token.spans_tile` is the result: what scanning a text gives is such a cover of it, with spans that follow each other, or
an error at the first place where there is no token, up to which the text has tokens.

A step of the scanner is one `skipTrivia` and one `Lexeme.longest`; `Scanned` is what a run of them gives, at any place.
-/
import ThreeMachines.Proofs.Lexing.Lexemes

namespace ThreeMachines

/-- `ts` cover `front`, which stands between `before` and `after` -/
inductive Tiles : List Char → List Char → List Located → List Char → Prop where
  | nil {before after : List Char} : Tiles before [] [] after
  | cons {before gap slice front after : List Char} {t : Token} {ts : List Located} (hgap : Trivia false gap)
      (hspells : Spells slice t) (hlongest : Longest slice (front ++ after))
      (later : Tiles (before ++ gap ++ slice) front ts after) :
    Tiles before (gap ++ slice ++ front) (⟨t, Span.at (before ++ gap) slice⟩ :: ts) after

namespace Tiles

variable {before front after kept : List Char} {ts : List Located}

/-- what stands behind may be cut off -/
theorem shorten (h : Tiles before front ts after) (hkept : kept <+: after) : Tiles before front ts kept := by
  induction h with
  | nil => exact .nil
  | cons hgap hspells hlongest _ ih =>
    exact .cons hgap hspells (hlongest.shorten ((List.prefix_append_right_inj _).2 hkept)) (ih hkept)

/-- the spans lie in the part that is covered, none is empty, and each ends before the next one starts -/
theorem ordered (h : Tiles before front ts after) :
    (∀ t ∈ ts, byteSize before ≤ t.span.start ∧ t.span.start < t.span.stop ∧
      t.span.stop ≤ byteSize (before ++ front)) ∧ ts.Pairwise fun a b => a.span.stop ≤ b.span.start := by
  induction h with
  | nil => exact ⟨nofun, .nil⟩
  | @cons before gap slice front after t ts _ _ hlongest _ ih =>
    obtain ⟨hinside, hpairs⟩ := ih
    have hpos := byteSize_pos hlongest.isLexeme.ne_nil
    simp only [byteSize_append] at hinside
    have hfirst : byteSize before ≤ (Span.at (before ++ gap) slice).start ∧
        (Span.at (before ++ gap) slice).start < (Span.at (before ++ gap) slice).stop ∧
        (Span.at (before ++ gap) slice).stop ≤ byteSize (before ++ (gap ++ slice ++ front)) := by
      simp only [Span.at, byteSize_append]
      omega
    refine ⟨List.forall_mem_cons.2 ⟨hfirst, fun t ht => ?_⟩, List.pairwise_cons.2 ⟨fun t ht => ?_, hpairs⟩⟩
    · have := hinside t ht
      simp only [byteSize_append]
      omega
    · simp only [Span.at, byteSize_append]
      exact (hinside t ht).1

end Tiles

/-- what scanning `cs` gives, where `before` stands in front of it -/
inductive Scanned (before cs : List Char) : Except SyntaxError (List Located) → Prop where
  | tokens {front gap : List Char} {body : List Located} (hcs : cs = front ++ gap) (htiles : Tiles before front body gap)
      (hgap : Trivia true gap) : Scanned before cs (.ok (body ++ [⟨.eof, Span.at (before ++ cs) []⟩]))
  | failure {front gap slice after : List Char} {body : List Located} {cause : SyntaxError.Cause}
      (hcs : cs = front ++ gap ++ slice ++ after) (htiles : Tiles before front body (gap ++ slice ++ after))
      (hgap : Trivia false gap) (hstuck : Stuck slice after cause) :
    Scanned before cs (.error ⟨cause, Span.at (before ++ front ++ gap) slice⟩)

/-- a token in front of what is scanned -/
theorem Scanned.cons {before gap slice after : List Char} {t : Token} {x : Except SyntaxError (List Located)}
    (hgap : Trivia false gap) (hspells : Spells slice t) (hlongest : Longest slice after)
    (h : Scanned (before ++ gap ++ slice) after x) :
    Scanned before (gap ++ slice ++ after) (do let later ← x; return ⟨t, Span.at (before ++ gap) slice⟩ :: later) := by
  cases h with
  | @tokens front last body hcs htiles hlast =>
    subst hcs
    have hcover := Tiles.cons hgap hspells hlongest htiles
    have hscanned := Scanned.tokens rfl hcover hlast
    simp only [List.append_assoc] at hscanned ⊢
    exact hscanned
  | @failure front last stuck rest body cause hcs htiles hlast hstuck =>
    have hafter : after = front ++ (last ++ stuck ++ rest) := by rw [hcs, ← List.append_assoc, ← List.append_assoc]
    rw [hafter] at hlongest ⊢
    have hcover := Tiles.cons hgap hspells hlongest htiles
    have hscanned := Scanned.failure rfl hcover hlast hstuck
    simp only [List.append_assoc] at hscanned ⊢
    exact hscanned

namespace Token

open Position

theorem scanned_scanFrom (before cs : List Char) : Scanned before cs (scanFrom (origin.after before) cs) := by
  cases hskip : skipTrivia false (origin.after before) cs with
  | mk q rest =>
    have hshorter {c : Char} {later : List Char} (h : rest = c :: later) : later.length < cs.length :=
      skipTrivia_rest (h ▸ hskip)
    obtain ⟨gap, hcs, hq, hstarts, hgap⟩ := exists_trivia hskip
    rw [hq, ← after_append] at hskip
    cases rest with
    | nil =>
      rw [List.append_nil] at hcs
      subst hcs
      rw [scanFrom_end hskip, spanOf_after]
      exact .tokens rfl .nil hgap
    | cons c rest =>
      have htakes := Lexeme.takes_longest hstarts
      rw [scanFrom_token hskip]
      generalize Lexeme.longest c rest = lexeme at htakes
      cases htakes with
      | @stuck more after cause hrest hstuck =>
        have hscanned : Scanned before ([] ++ gap ++ c :: more ++ after) _ := .failure rfl .nil hgap hstuck
        rw [spanOf_after, hcs, hrest]
        simpa using hscanned
      | @token more after t hrest hlongest hspells =>
        have hlater := scanned_scanFrom (before ++ gap ++ c :: more) after
        have hscanned := Scanned.cons hgap hspells hlongest hlater
        subst hrest
        rw [List.drop_left, spanOf_after, ← after_append, hcs]
        simpa using hscanned
termination_by cs.length
decreasing_by
  have := hshorter rfl
  rw [hrest, List.length_append] at this
  omega

/-- a text that is covered has the tokens that cover it -/
theorem scanFrom_of_tiles {before front gap : List Char} {body : List Located} (h : Tiles before front body gap)
    (hgap : Trivia true gap) : scanFrom (origin.after before) (front ++ gap) =
      .ok (body ++ [⟨.eof, Span.at (before ++ (front ++ gap)) []⟩]) := by
  induction h with
  | @nil before gap =>
    have hend : Starts [] := fun _ _ h => nomatch h
    have hskip := skipTrivia_trivia hgap hend (fun _ => rfl) (origin.after before)
    rw [List.append_nil, ← after_append] at hskip
    rw [List.nil_append, scanFrom_end hskip, spanOf_after]
    rfl
  | @cons before gap slice front after t ts htrivia hspells hlongest _ ih =>
    have hskip := skipTrivia_trivia htrivia (hlongest.isLexeme.starts (front ++ after)) nofun (origin.after before)
    obtain ⟨c, more, rfl⟩ := List.exists_cons_of_ne_nil hlongest.isLexeme.ne_nil
    rw [← after_append, List.cons_append] at hskip
    rw [List.append_assoc, List.append_assoc, List.cons_append, scanFrom_token hskip,
      Lexeme.longest_of_spells hlongest hspells]
    simp only [List.drop_left, ← after_append, spanOf_after]
    rw [ih hgap]
    simp only [List.append_assoc]
    rfl

/-- the tokens of a text are those that cover it, up to the trivia before its end, and its end -/
theorem scan_eq_ok_iff {text : String} {ts : List Located} : scan text = .ok ts ↔ ∃ front gap body,
    text.toList = front ++ gap ∧ Tiles [] front body gap ∧ Trivia true gap ∧
      ts = body ++ [⟨.eof, Span.at text.toList []⟩] := by
  constructor
  · intro h
    have hscanned := scanned_scanFrom [] text.toList
    rw [show scanFrom (origin.after []) text.toList = .ok ts from h] at hscanned
    cases hscanned with
    | tokens hcs htiles hgap => exact ⟨_, _, _, hcs, htiles, hgap, rfl⟩
  · rintro ⟨front, gap, body, hcs, htiles, hgap, rfl⟩
    rw [scan, hcs]
    exact scanFrom_of_tiles htiles hgap

/-- a comment of more bytes than characters, and a line that ends with two characters -/
example : scan "# é\r\n\tx" = .ok [⟨.ident "x", ⟨7, 8, 2, 2⟩⟩, ⟨.eof, ⟨8, 8, 2, 3⟩⟩] := by with_unfolding_all rfl

end Token

end ThreeMachines
