/-
Layout does not matter.

A `SourceLayout` is a text put together from tokens: each is written as `Token.spelling` has it, with a gap of blanks
and comments in front of it. Only the gap in front of the first token, and what stands behind the last, may be empty.
Any other gap starts with a blank or with `#`, and no lexeme contains one of these (`IsLexeme.not_trivia`). So no lexeme
reaches beyond the token that it starts in, and each token is the longest where it stands
(`IsLexeme.longest_of_bordered`), although `<` begins `<=`, `-` begins `->` and `in` begins a name. With that the layout
is a cover of its text (`tiles_written`).

- `SourceLayout.scan_and_parse`: a text of writable tokens is read as exactly these tokens, and any other layout of them
  is parsed to the same expression, or refused for the same cause.
-/
import ThreeMachines.Proofs.Lexing.Tiles
import ThreeMachines.Proofs.Parsing.Places
import ThreeMachines.Proofs.Parsing.Programs

namespace ThreeMachines

open Parse

/-- tokens with gaps around them -/
structure SourceLayout where
  /-- each token, after the gap in front of it -/
  pieces : List (List Char × Token)
  /-- what stands behind the last token -/
  last : List Char
  gaps : ∀ piece ∈ pieces, Trivia false piece.1
  apart : ∀ piece ∈ pieces.tail, piece.1 ≠ []
  final : Trivia true last

namespace SourceLayout

/-- gaps and tokens as they stand in a text -/
def written (pieces : List (List Char × Token)) : List Char :=
  pieces.flatMap fun piece => piece.1 ++ piece.2.spelling.toList

def text (l : SourceLayout) : String := String.ofList (written l.pieces ++ l.last)

def tokens (l : SourceLayout) : List Token := l.pieces.map Prod.snd

/-- the layout with the same gap everywhere -/
def uniform (gap : List Char) (hgap : Trivia false gap) (hne : gap ≠ []) (ts : List Token) : SourceLayout where
  pieces := ts.map fun t => (gap, t)
  last := gap
  gaps := by
    intro piece hpiece
    obtain ⟨t, -, rfl⟩ := List.mem_map.1 hpiece
    exact hgap
  apart := by
    intro piece hpiece
    obtain ⟨t, -, rfl⟩ := List.mem_map.1 (List.mem_of_mem_tail hpiece)
    exact hne
  final := hgap.mono

theorem text_uniform (gap : List Char) (hgap : Trivia false gap) (hne : gap ≠ []) (ts : List Token) :
    (uniform gap hgap hne ts).text = String.ofList (ts.flatMap (fun t => gap ++ t.spelling.toList) ++ gap) := by
  simp only [text, written, uniform, List.flatMap_map]

end SourceLayout

/-! ## No lexeme reaches beyond its token -/

/-- nothing stands here, or trivia starts -/
def Bordered (rest : List Char) : Prop := ∀ c cs, rest = c :: cs → isBlank c ∨ c = '#'

theorem Trivia.bordered {final : Bool} {gap : List Char} (h : Trivia final gap) (hne : gap ≠ []) (rest : List Char) :
    Bordered (gap ++ rest) := by
  intro c cs heq
  cases h with
  | nil => exact absurd rfl hne
  | blank hc =>
    cases heq
    exact .inl (isBlank_iff.2 hc)
  | comment | unended =>
    cases heq
    exact .inr rfl

variable {slice after : List Char} {t : Token}

/-- no lexeme contains a blank or a `#` -/
theorem IsLexeme.not_trivia (h : IsLexeme slice) {c : Char} (hc : c ∈ slice) : ¬ (isBlank c ∨ c = '#') := by
  rw [not_or]
  cases h with
  | digits _ hdigits => exact Token.starts_of_class (by decide) (hdigits c hc)
  | word hstart hparts =>
    rcases List.mem_cons.1 hc with rfl | hc
    · exact Token.starts_of_class (by decide) hstart
    · exact Token.starts_of_class (by decide) (hparts c hc)
  | mark m =>
    have hmark : m.spelling.toList.all fun c => !(isBlank c || c == '#') := by cases m <;> decide
    simpa using List.all_eq_true.1 hmark c hc

/-- where nothing stands behind a lexeme, or trivia does, none is longer -/
theorem IsLexeme.longest_of_bordered (h : IsLexeme slice) (hafter : Bordered after) : Longest slice after := by
  refine ⟨h, fun piece hpiece hstarts => ?_⟩
  rcases List.prefix_or_prefix_of_prefix hstarts (List.prefix_append slice after) with hshort | hlong
  · exact hshort.length_le
  · obtain ⟨more, rfl⟩ := hlong
    obtain ⟨rest, hrest⟩ := (List.prefix_append_right_inj slice).1 hstarts
    cases more with
    | nil => simp
    | cons c more =>
      have hborder := hafter c (more ++ rest) hrest.symm
      exact absurd hborder (hpiece.not_trivia (by simp))

theorem Spells.isLexeme (h : Spells slice t) : IsLexeme slice := by
  cases h with
  | number hne hdigits => exact .digits hne hdigits
  | keyword k => cases k <;> exact .word (by decide) (List.all_eq_true.1 (by decide))
  | ident hname =>
    obtain ⟨⟨c, cs, hlist, hc, hcs⟩, -⟩ := isName_iff.1 hname
    rw [hlist]
    exact .word hc hcs
  | mark m => exact .mark m

/-- a writable token is spelled by its spelling -/
theorem Token.spells_spelling (h : t.Writable) : Spells t.spelling.toList t := by
  cases t with
  | number value =>
    obtain ⟨n, hn, hdigits⟩ := toList_spelling_number h
    rw [hdigits]
    refine .number Nat.toDigits_ne_nil (fun c hc => isDigit_of_mem_toDigits hc) ?_
    rw [hn, Nat.ofDigitChars_ten_toDigits]
  | ident name => exact .ident h
  | keyword k => exact .keyword k
  | mark m => exact .mark m
  | eof => cases h

/-! ## Layouts are covers -/

namespace SourceLayout

theorem bordered_written {pieces : List (List Char × Token)} (hgaps : ∀ piece ∈ pieces, Trivia false piece.1)
    (hne : ∀ piece ∈ pieces, piece.1 ≠ []) (hafter : Bordered after) : Bordered (written pieces ++ after) := by
  cases pieces with
  | nil => exact hafter
  | cons piece later =>
    have hborder := (hgaps piece List.mem_cons_self).bordered (hne piece List.mem_cons_self)
      (piece.2.spelling.toList ++ written later ++ after)
    simpa [written] using hborder

/-- the tokens cover what they are written as -/
theorem tiles_written {pieces : List (List Char × Token)} (hgaps : ∀ piece ∈ pieces, Trivia false piece.1)
    (hapart : ∀ piece ∈ pieces.tail, piece.1 ≠ []) (hwritable : ∀ piece ∈ pieces, piece.2.Writable)
    (hafter : Bordered after) (before : List Char) :
    ∃ body, Tiles before (written pieces) body after ∧ Parse.tokens body = pieces.map Prod.snd := by
  induction pieces generalizing before with
  | nil => exact ⟨[], .nil, rfl⟩
  | cons piece later ih =>
    obtain ⟨gap, t⟩ := piece
    obtain ⟨hgap, hgaps⟩ := List.forall_mem_cons.1 hgaps
    obtain ⟨ht, hwritable⟩ := List.forall_mem_cons.1 hwritable
    have hspells := Token.spells_spelling ht
    have hborder := bordered_written hgaps hapart hafter
    obtain ⟨body, htiles, hbody⟩ := ih hgaps (fun piece h => hapart piece (List.mem_of_mem_tail h)) hwritable
      (before ++ gap ++ t.spelling.toList)
    exact ⟨_, .cons hgap hspells (hspells.isLexeme.longest_of_bordered hborder) htiles, congrArg (t :: ·) hbody⟩

theorem scan_text (l : SourceLayout) (h : ∀ t ∈ l.tokens, t.Writable) :
    ∃ ts, Token.scan l.text = .ok ts ∧ Parse.tokens ts = l.tokens ++ [.eof] := by
  have hafter : Bordered l.last := by
    intro c cs heq
    have hborder := l.final.bordered (by simp [heq]) []
    exact hborder c cs (by simpa using heq)
  obtain ⟨body, htiles, hbody⟩ := tiles_written l.gaps l.apart
    (fun piece hpiece => h piece.2 (List.mem_map_of_mem hpiece)) hafter []
  refine ⟨_, Token.scan_eq_ok_iff.2 ⟨_, _, body, String.toList_ofList, htiles, l.final, rfl⟩, ?_⟩
  rw [Parse.tokens, List.map_append]
  exact congrArg (· ++ [.eof]) hbody

/-- **Layout.** A text of writable tokens is read as exactly these tokens, whatever the gaps between and around them,
and each other layout of them is parsed to the same expression, or refused for the same cause. -/
theorem scan_and_parse (l : SourceLayout) (h : ∀ t ∈ l.tokens, t.Writable) :
    (∃ ts, Token.scan l.text = .ok ts ∧ Parse.tokens ts = l.tokens ++ [.eof]) ∧
      ∀ l' : SourceLayout, l'.tokens = l.tokens →
        (Expr.parse l'.text).mapError SyntaxError.cause = (Expr.parse l.text).mapError SyntaxError.cause := by
  obtain ⟨ts, hts, htokens⟩ := l.scan_text h
  refine ⟨⟨ts, hts, htokens⟩, fun l' hl' => ?_⟩
  obtain ⟨ts', hts', htokens'⟩ := l'.scan_text (hl' ▸ h)
  rw [Expr.parse_eq_program hts, Expr.parse_eq_program hts']
  exact program_alike (by rw [htokens, htokens', hl'])

/-- a name that begins with a keyword, a mark that begins a longer one, the greatest number and a comment with marks in
it -/
theorem scan_and_parse_boundaries : (∃ ts, Token.scan " inx - 9223372036854775807 < 1 " = .ok ts ∧
    Parse.tokens ts = [.ident "inx", .mark .minus, .number 9223372036854775807, .mark .less, .number 1, .eof]) ∧
      (Expr.parse "#<=\ninx#<=\n-#<=\n9223372036854775807#<=\n<#<=\n1#<=\n").mapError SyntaxError.cause =
        (Expr.parse " inx - 9223372036854775807 < 1 ").mapError SyntaxError.cause := by
  have hblank : Trivia false [' '] := .blank (by decide) .nil
  have hline : '\n' ∉ ['<', '='] := by decide
  have hcomment : Trivia false ['#', '<', '=', '\n'] := .comment hline .nil
  let ts : List Token := [.ident "inx", .mark .minus, .number 9223372036854775807, .mark .less, .number 1]
  have hwritable : ∀ t ∈ ts, t.Writable := by
    have hgreatest : (0 : Int64) ≤ 9223372036854775807 := by decide
    have hone : (0 : Int64) ≤ 1 := by decide
    have hname : isName "inx" := by rfl
    simp [ts, Token.Writable, hname, hgreatest, hone]
  have hspaced : (uniform [' '] hblank (by decide) ts).text = " inx - 9223372036854775807 < 1 " := by
    rw [text_uniform]
    decide +kernel
  have hcommented : (uniform ['#', '<', '=', '\n'] hcomment (by decide) ts).text =
      "#<=\ninx#<=\n-#<=\n9223372036854775807#<=\n<#<=\n1#<=\n" := by
    rw [text_uniform]
    decide +kernel
  have h := scan_and_parse (uniform [' '] hblank (by decide) ts) (by simpa [uniform, tokens] using hwritable)
  rw [hspaced] at h
  exact ⟨h.1, hcommented ▸ h.2 (uniform ['#', '<', '=', '\n'] hcomment (by decide) ts) rfl⟩

end SourceLayout

end ThreeMachines
