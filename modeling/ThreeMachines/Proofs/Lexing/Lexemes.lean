/-
The pieces of text that are tokens, said apart from how the scanner finds them.

`IsLexeme` are the runs of digits, the words and the marks; `Spells` says which token such a piece is; `Longest` says
that no lexeme that starts at the same place is longer. Where no trivia starts, the scanner takes the longest lexeme, and
it reads as the token that this piece spells; or `Stuck` holds, and the error says why (`Lexeme.takes_longest`). The
other way round, a piece that is longest and spells a token is taken, and read as it (`Lexeme.longest_of_spells`).

The first character of a lexeme tells of which kind it is, and with that how far it can reach: the run of a class
(`longest_run`, `takeWhile_of_longest`), or one or two characters (`Mark.spelling_cases`).
-/
import ThreeMachines.Proofs.Lexing.Trivia
import ThreeMachines.Proofs.Parsing.Scanning

namespace ThreeMachines

/-- a run of digits, a word, or a mark -/
inductive IsLexeme : List Char → Prop where
  | digits {cs : List Char} (hne : cs ≠ []) (hdigits : ∀ c ∈ cs, c.isDigit = true) : IsLexeme cs
  | word {c : Char} {cs : List Char} (hc : isNameStart c = true) (hcs : ∀ d ∈ cs, isNamePart d = true) :
    IsLexeme (c :: cs)
  | mark (m : Mark) : IsLexeme m.spelling.toList

/-- the token that a piece of text is; a word of the language is no name -/
inductive Spells : List Char → Token → Prop where
  | number {cs : List Char} {value : Int64} (hne : cs ≠ []) (hdigits : ∀ c ∈ cs, c.isDigit = true)
      (hvalue : value.toInt = Nat.ofDigitChars 10 cs 0) : Spells cs (.number value)
  | keyword (k : Keyword) : Spells k.spelling.toList (.keyword k)
  | ident {name : String} (hname : isName name = true) : Spells name.toList (.ident name)
  | mark (m : Mark) : Spells m.spelling.toList (.mark m)

/-- a lexeme, and none that starts where it does is longer when `after` follows it -/
structure Longest (slice after : List Char) : Prop where
  isLexeme : IsLexeme slice
  length_le : ∀ piece, IsLexeme piece → piece <+: slice ++ after → piece.length ≤ slice.length

/-- there is no token at `slice`: no lexeme starts there, or the longest one is a number that 64 bits do not hold -/
inductive Stuck : List Char → List Char → SyntaxError.Cause → Prop where
  | character {c : Char} {after : List Char} (htrivia : c ∉ [' ', '\t', '\r', '\n', '#'])
      (hnone : ∀ piece, IsLexeme piece → ¬ piece <+: c :: after) : Stuck [c] after (.unexpectedCharacter c)
  | number {slice after : List Char} (hlongest : Longest slice after) (hdigits : ∀ c ∈ slice, c.isDigit = true)
      (hvalue : greatestWord < Nat.ofDigitChars 10 slice 0) : Stuck slice after (.invalidNumber (String.ofList slice))

variable {c d : Char} {slice after piece cs : List Char} {m : Mark} {t : Token}

/-! ## Pieces of text -/

/-- a prefix whose characters are all of a class is no longer than the run of that class -/
theorem length_le_takeWhile {f : Char → Bool} (hpiece : piece <+: cs) (hall : ∀ d ∈ piece, f d = true) :
    piece.length ≤ (cs.takeWhile f).length := by
  obtain ⟨later, rfl⟩ := hpiece
  rw [List.takeWhile_append_of_pos hall, List.length_append]
  exact Nat.le_add_right _ _

namespace Mark

theorem ofPair?_eq_some_iff : ofPair? c d = some m ↔ m.spelling.toList = [c, d] := by
  constructor
  · intro h
    unfold ofPair? at h
    split at h <;> cases h <;> rfl
  · intro h
    cases m <;> cases h <;> rfl

theorem ofChar?_eq_some_iff : ofChar? c = some m ↔ m.spelling.toList = [c] := by
  constructor
  · intro h
    unfold ofChar? at h
    split at h <;> cases h <;> rfl
  · intro h
    cases m <;> cases h <;> rfl

/-- marks have one or two characters -/
theorem spelling_cases (m : Mark) : (∃ c, m.spelling.toList = [c]) ∨ ∃ c d, m.spelling.toList = [c, d] := by
  cases m <;> simp [spelling]

/-- no mark starts with a digit or like a name, and none where trivia starts -/
theorem start_spelling (h : m.spelling.toList = c :: cs) :
    c.isDigit = false ∧ isNameStart c = false ∧ ¬ isBlank c ∧ c ≠ '#' := by
  cases m <;> cases h <;> decide

end Mark

/-- the first character of a lexeme tells which kind it is of -/
theorem IsLexeme.cases_head (h : IsLexeme (c :: cs)) :
    (c.isDigit = true ∧ ∀ d ∈ cs, d.isDigit = true) ∨ (isNameStart c = true ∧ ∀ d ∈ cs, isNamePart d = true) ∨
      ∃ m : Mark, m.spelling.toList = c :: cs := by
  generalize hpiece : c :: cs = piece at h
  cases h with
  | digits _ hdigits => exact .inl (List.forall_mem_cons.1 (hpiece ▸ hdigits))
  | word hc hcs =>
    cases hpiece
    exact .inr (.inl ⟨hc, hcs⟩)
  | mark m => exact .inr (.inr ⟨m, rfl⟩)

theorem IsLexeme.ne_nil (h : IsLexeme piece) : piece ≠ [] := by
  cases h with
  | digits hne => exact hne
  | word => exact List.cons_ne_nil _ _
  | mark m => cases m <;> decide

/-- where a lexeme starts, no trivia does -/
theorem IsLexeme.starts (h : IsLexeme piece) (after : List Char) : Starts (piece ++ after) := by
  intro c cs heq
  obtain ⟨c, cs, rfl⟩ := List.exists_cons_of_ne_nil h.ne_nil
  cases heq
  rcases h.cases_head with ⟨hc, -⟩ | ⟨hc, -⟩ | ⟨m, hm⟩
  · exact Token.starts_of_class (by decide) hc
  · exact Token.starts_of_class (by decide) hc
  · exact (Mark.start_spelling hm).2.2

/-- with less behind it, a longest lexeme is one still -/
theorem Longest.shorten {kept : List Char} (h : Longest slice after) (hkept : kept <+: after) : Longest slice kept where
  isLexeme := h.isLexeme
  length_le piece hpiece hstarts :=
    h.length_le piece hpiece (hstarts.trans ((List.prefix_append_right_inj slice).2 hkept))

namespace Lexeme

variable {more rest : List Char}

/-! ## The run of a class -/

/-- a character with the run of a class behind it is longest, if all lexemes that start with it are of that class -/
theorem longest_run {f : Char → Bool} (hrun : IsLexeme (c :: rest.takeWhile f))
    (hclass : ∀ more, IsLexeme (c :: more) → ∀ d ∈ more, f d = true) :
    Longest (c :: rest.takeWhile f) (rest.dropWhile f) := by
  refine ⟨hrun, fun piece hpiece hstarts => ?_⟩
  rw [List.cons_append, List.takeWhile_append_dropWhile] at hstarts
  obtain ⟨d, more, rfl⟩ := List.exists_cons_of_ne_nil hpiece.ne_nil
  obtain ⟨rfl, hmore⟩ := List.cons_prefix_cons.1 hstarts
  exact Nat.succ_le_succ (length_le_takeWhile hmore (hclass more hpiece))

/-- the other way round, what is longest is all of the run -/
theorem takeWhile_of_longest {f : Char → Bool} (h : Longest (c :: more) after) (hmore : ∀ d ∈ more, f d = true)
    (hrun : ∀ run, (∀ d ∈ run, f d = true) → IsLexeme (c :: run)) : (more ++ after).takeWhile f = more := by
  have hpiece := hrun ((more ++ after).takeWhile f) (List.all_eq_true.1 List.all_takeWhile)
  have hle := h.length_le _ hpiece (List.cons_prefix_cons.2 ⟨rfl, List.takeWhile_prefix f⟩)
  rw [List.takeWhile_append_of_pos hmore] at hle ⊢
  rw [List.length_cons, List.length_cons, List.length_append] at hle
  have hnil : after.takeWhile f = [] := List.eq_nil_of_length_eq_zero (by omega)
  rw [hnil, List.append_nil]

theorem digits_of_isDigit (hc : c.isDigit = true) (h : IsLexeme (c :: more)) : ∀ d ∈ more, d.isDigit = true := by
  rcases h.cases_head with ⟨-, hmore⟩ | ⟨hstart, -⟩ | ⟨m, hm⟩
  · exact hmore
  · exact absurd hc (Token.not_isDigit_of_isNameStart hstart)
  · rw [(Mark.start_spelling hm).1] at hc
    cases hc

theorem parts_of_isNameStart (hc : isNameStart c = true) (h : IsLexeme (c :: more)) :
    ∀ d ∈ more, isNamePart d = true := by
  rcases h.cases_head with ⟨hdigit, -⟩ | ⟨-, hmore⟩ | ⟨m, hm⟩
  · exact absurd hdigit (Token.not_isDigit_of_isNameStart hc)
  · exact hmore
  · rw [(Mark.start_spelling hm).2.1] at hc
    cases hc

theorem mark_of_other (hdigit : ¬ c.isDigit) (hname : ¬ isNameStart c) (h : IsLexeme (c :: more)) :
    ∃ m : Mark, m.spelling.toList = c :: more := by
  rcases h.cases_head with ⟨hc, -⟩ | ⟨hc, -⟩ | hmark
  · exact absurd hc hdigit
  · exact absurd hc hname
  · exact hmark

/-! ## What the scanner takes -/

/-- what was taken of `c` and `rest`, and what that piece is -/
inductive Takes (c : Char) (rest : List Char) : Lexeme → Prop where
  | token {more after : List Char} {t : Token} (hrest : rest = more ++ after) (hlongest : Longest (c :: more) after)
      (hspells : Spells (c :: more) t) : Takes c rest ⟨more, .ok t⟩
  | stuck {more after : List Char} {cause : SyntaxError.Cause} (hrest : rest = more ++ after)
      (hstuck : Stuck (c :: more) after cause) : Takes c rest ⟨more, .error cause⟩

theorem takes_digits (hc : c.isDigit = true) :
    Takes c rest ⟨rest.takeWhile Char.isDigit, readNumber (c :: rest.takeWhile Char.isDigit)⟩ := by
  have hall : ∀ d ∈ c :: rest.takeWhile Char.isDigit, d.isDigit = true :=
    List.forall_mem_cons.2 ⟨hc, List.all_eq_true.1 List.all_takeWhile⟩
  have hlongest := longest_run (.digits (List.cons_ne_nil _ _) hall) fun more => digits_of_isDigit hc
  have hsplit : rest = rest.takeWhile Char.isDigit ++ rest.dropWhile Char.isDigit :=
    List.takeWhile_append_dropWhile.symm
  have hvalue : (decimalValue (c :: rest.takeWhile Char.isDigit)) =
      Nat.ofDigitChars 10 (c :: rest.takeWhile Char.isDigit) 0 := by
    rw [decimalValue, Nat.ofDigitChars_eq_foldl]
  unfold readNumber
  split
  · rename_i hle
    refine .token hsplit hlongest (.number (List.cons_ne_nil _ _) hall ?_)
    rw [Int64.toInt_ofNat_of_lt (by rw [greatestWord] at hle; omega), hvalue]
  · rename_i hgt
    refine .stuck hsplit (.number hlongest hall ?_)
    rw [← hvalue]
    exact Int.not_le.1 hgt

theorem spells_readWord {cs : List Char} (hc : isNameStart c = true) (hcs : ∀ d ∈ cs, isNamePart d = true) :
    Spells (c :: cs) (readWord (String.ofList (c :: cs))) := by
  rw [← String.toList_ofList (l := c :: cs)]
  unfold readWord
  rw [String.ofList_toList]
  split
  · rename_i k hk
    have hword : k.spelling = String.ofList (c :: cs) := by
      simpa using List.find?_some hk
    rw [← hword]
    exact .keyword k
  · rename_i hk
    exact .ident (isName_iff.2 ⟨⟨c, cs, String.toList_ofList, hc, hcs⟩, Keyword.ofSpelling?_eq_none.1 hk⟩)

/-- where `c` starts no mark of two characters, it can only be a mark by itself -/
theorem piece_of_unpaired (hdigit : ¬ c.isDigit) (hname : ¬ isNameStart c)
    (hpair : ∀ d later, rest = d :: later → Mark.ofPair? c d = none) (hpiece : IsLexeme piece)
    (hstarts : piece <+: c :: rest) : piece = [c] ∧ ∃ m, Mark.ofChar? c = some m := by
  obtain ⟨d, more, rfl⟩ := List.exists_cons_of_ne_nil hpiece.ne_nil
  obtain ⟨rfl, hmore⟩ := List.cons_prefix_cons.1 hstarts
  obtain ⟨m, hm⟩ := mark_of_other hdigit hname hpiece
  rcases m.spelling_cases with ⟨c, hc⟩ | ⟨c, e, hce⟩
  · cases hc.symm.trans hm
    exact ⟨rfl, m, Mark.ofChar?_eq_some_iff.2 hc⟩
  · cases hce.symm.trans hm
    obtain ⟨later, rfl⟩ := hmore
    cases (Mark.ofPair?_eq_some_iff.2 hce).symm.trans (hpair e later rfl)

theorem takes_single (hdigit : ¬ c.isDigit) (hname : ¬ isNameStart c) (htrivia : c ∉ [' ', '\t', '\r', '\n', '#'])
    (hpair : ∀ d later, rest = d :: later → Mark.ofPair? c d = none) : Takes c rest (single c) := by
  unfold single
  split
  · rename_i m hm
    have hspelling : m.spelling.toList = [c] := Mark.ofChar?_eq_some_iff.1 hm
    refine .token rfl ⟨hspelling ▸ .mark m, fun piece hpiece hstarts => ?_⟩ (hspelling ▸ .mark m)
    rw [(piece_of_unpaired hdigit hname hpair hpiece hstarts).1]
  · rename_i hnone
    refine .stuck rfl (.character htrivia fun piece hpiece hstarts => ?_)
    obtain ⟨-, m, hm⟩ := piece_of_unpaired hdigit hname hpair hpiece hstarts
    cases hnone.symm.trans hm

/-- of two marks that start with `c`, the one of two characters is taken -/
theorem takes_mark (hdigit : ¬ c.isDigit) (hname : ¬ isNameStart c) (htrivia : c ∉ [' ', '\t', '\r', '\n', '#']) :
    Takes c rest (mark c rest) := by
  unfold mark
  split
  · exact takes_single hdigit hname htrivia nofun
  · rename_i d later
    split
    · rename_i m hm
      have hspelling : m.spelling.toList = [c, d] := Mark.ofPair?_eq_some_iff.1 hm
      refine .token rfl ⟨hspelling ▸ .mark m, fun piece hpiece hstarts => ?_⟩ (hspelling ▸ .mark m)
      obtain ⟨e, more, rfl⟩ := List.exists_cons_of_ne_nil hpiece.ne_nil
      obtain ⟨rfl, -⟩ := List.cons_prefix_cons.1 hstarts
      obtain ⟨m', hm'⟩ := mark_of_other hdigit hname hpiece
      rcases m'.spelling_cases with ⟨_, hc⟩ | ⟨_, _, hce⟩
      · simp [← hm', hc]
      · simp [← hm', hce]
    · rename_i hnone
      refine takes_single hdigit hname htrivia fun d' later' heq => ?_
      cases heq
      exact hnone

theorem takes_longest (hstarts : Starts (c :: rest)) : Takes c rest (longest c rest) := by
  unfold longest
  split
  · rename_i hc
    exact takes_digits hc
  · rename_i hdigit
    split
    · rename_i hc
      have hparts : ∀ d ∈ rest.takeWhile isNamePart, isNamePart d = true := List.all_eq_true.1 List.all_takeWhile
      exact .token List.takeWhile_append_dropWhile.symm
        (longest_run (.word hc hparts) fun more => parts_of_isNameStart hc) (spells_readWord hc hparts)
    · rename_i hname
      refine takes_mark hdigit hname ?_
      obtain ⟨hblank, hcomment⟩ := hstarts c rest rfl
      rw [isBlank_iff] at hblank
      simpa [hcomment] using hblank

/-! ## The other way round -/

theorem longest_number {value : Int64} (h : Longest (c :: more) after) (hdigits : ∀ d ∈ c :: more, d.isDigit = true)
    (hvalue : value.toInt = Nat.ofDigitChars 10 (c :: more) 0) :
    longest c (more ++ after) = ⟨more, .ok (.number value)⟩ := by
  obtain ⟨hc, hmore⟩ := List.forall_mem_cons.1 hdigits
  have hrun := takeWhile_of_longest h hmore fun run hrun =>
    .digits (List.cons_ne_nil _ _) (List.forall_mem_cons.2 ⟨hc, hrun⟩)
  have hdecimal : (decimalValue (c :: more) : Int) = value.toInt := by
    rw [hvalue, decimalValue, Nat.ofDigitChars_eq_foldl]
  have hlt := value.toInt_lt
  have hread : readNumber (c :: more) = .ok (.number value) := by
    rw [readNumber, if_pos (by rw [greatestWord]; omega)]
    congr 2
    rw [← Int64.toInt_inj, Int64.toInt_ofNat_of_lt (by omega), hdecimal]
  rw [longest, if_pos hc, hrun]
  exact congrArg _ hread

theorem longest_word {word : String} (hword : word.toList = c :: more) (h : Longest (c :: more) after)
    (hc : isNameStart c = true) : longest c (more ++ after) = ⟨more, .ok (readWord word)⟩ := by
  have hrun := takeWhile_of_longest h (parts_of_isNameStart hc h.isLexeme) fun run => .word hc
  rw [longest, if_neg (Token.not_isDigit_of_isNameStart hc), if_pos hc, hrun]
  simp only [← hword, String.ofList_toList]

theorem longest_mark (hm : m.spelling.toList = c :: more) (h : Longest (c :: more) after) :
    longest c (more ++ after) = ⟨more, .ok (.mark m)⟩ := by
  obtain ⟨hdigit, hname, -⟩ := Mark.start_spelling hm
  unfold longest
  rw [hdigit, hname]
  rcases m.spelling_cases with ⟨_, hc⟩ | ⟨_, _, hce⟩
  · cases hc.symm.trans hm
    have hsingle : single c = ⟨[], .ok (.mark m)⟩ := by
      rw [single, Mark.ofChar?_eq_some_iff.2 hm]
    -- a longer mark would be a longer piece
    have hpair : ∀ d later, after = d :: later → Mark.ofPair? c d = none := by
      intro d later heq
      rw [Option.eq_none_iff_forall_ne_some]
      intro m' hm'
      have hle := h.length_le [c, d] (Mark.ofPair?_eq_some_iff.1 hm' ▸ .mark m') ⟨later, by simp [heq]⟩
      simp at hle
    cases after with
    | nil => exact hsingle
    | cons d later => simp [mark, hpair d later rfl, hsingle]
  · cases hce.symm.trans hm
    simp [mark, Mark.ofPair?_eq_some_iff.2 hm]

/-- what is longest and spells a token is taken, and read as it -/
theorem longest_of_spells (h : Longest (c :: more) after) (hspells : Spells (c :: more) t) :
    longest c (more ++ after) = ⟨more, .ok t⟩ := by
  generalize hpiece : c :: more = piece at hspells
  cases hspells with
  | number _ hdigits hvalue =>
    subst hpiece
    exact longest_number h hdigits hvalue
  | keyword k =>
    have hstart : isNameStart c = true := by cases k <;> cases hpiece <;> decide
    have hread : readWord k.spelling = .keyword k := by cases k <;> decide
    rw [longest_word hpiece.symm h hstart, hread]
  | @ident name hname =>
    obtain ⟨⟨d, ds, hlist, hstart, -⟩, hwords⟩ := isName_iff.1 hname
    cases hpiece.trans hlist
    rw [longest_word hlist h hstart, readWord, Keyword.ofSpelling?_eq_none.2 hwords]
  | mark m => exact longest_mark hpiece.symm h

end Lexeme

end ThreeMachines
