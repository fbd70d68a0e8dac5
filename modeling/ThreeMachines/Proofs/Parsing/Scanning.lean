/-
Which tokens a text has, and a text for given tokens.

The tokens of a text are those that can be written in one (`Token.Writable`), with the end of the text as the last
(`Token.tokens_scanFrom`). The other way round, writable tokens that are spelled one after the other with a blank
after each are read back (`Token.scanFrom_spell`).
-/
import ThreeMachines.Proofs.Parsing.Readers
import ThreeMachines.Proofs.Texts
import ThreeMachines.Proofs.Words

namespace ThreeMachines

open Parse

/-- a letter or an underscore, then letters, digits and underscores, and no word of the language -/
def isName (name : String) : Bool :=
  match name.toList with
  | [] => false
  | c :: cs => isNameStart c && cs.all isNamePart && Keyword.all.all fun k => k.spelling != name

/-- the tokens that a text can have before its end -/
def Token.Writable : Token → Prop
  | .number value => 0 ≤ value
  | .ident name => isName name
  | .keyword _ | .mark _ => True
  | .eof => False

/-! ## From a text to writable tokens -/

theorem Keyword.mem_all (k : Keyword) : k ∈ all := by cases k <;> decide

theorem Keyword.ofSpelling?_eq_none {word : String} : ofSpelling? word = none ↔ ∀ k : Keyword, word ≠ k.spelling := by
  simp only [ofSpelling?, List.find?_eq_none, mem_all, forall_true_left, beq_iff_eq, eq_comm (a := word), ne_eq]

theorem isName_iff {name : String} : isName name ↔
    (∃ c cs, name.toList = c :: cs ∧ isNameStart c = true ∧ ∀ d ∈ cs, isNamePart d = true) ∧
      ∀ k : Keyword, name ≠ k.spelling := by
  unfold isName
  split
  · simp_all
  · rename_i c cs hname
    have hwords : (Keyword.all.all fun k => k.spelling != name) = true ↔ ∀ k : Keyword, name ≠ k.spelling := by
      simp only [List.all_eq_true, Keyword.mem_all, forall_true_left, bne_iff_ne, ne_comm]
    rw [Bool.and_eq_true, hwords, hname]
    simp

theorem Token.writable_readNumber {digits : List Char} {t : Token} (h : readNumber digits = .ok t) : t.Writable := by
  unfold readNumber at h
  split at h
  · rename_i hle
    cases h
    rw [greatestWord] at hle
    rw [Writable, Int64.le_iff_toInt_le, Int64.toInt_ofNat_of_lt (by omega), Int64.toInt_zero]
    omega
  · cases h

theorem Token.writable_readWord {c : Char} {cs : List Char} (hc : isNameStart c = true)
    (hcs : ∀ d ∈ cs, isNamePart d = true) : (readWord (String.ofList (c :: cs))).Writable := by
  unfold readWord
  split
  · trivial
  · rename_i h
    exact isName_iff.2 ⟨⟨c, cs, String.toList_ofList, hc, hcs⟩, Keyword.ofSpelling?_eq_none.1 h⟩

theorem Lexeme.writable_mark {c : Char} {cs : List Char} {t : Token} (h : (mark c cs).reading = .ok t) :
    t.Writable := by
  have hsingle {t : Token} (h : (single c).reading = .ok t) : t.Writable := by
    unfold single at h
    split at h <;> cases h
    trivial
  unfold mark at h
  split at h
  · exact hsingle h
  · split at h
    · cases h
      trivial
    · exact hsingle h

theorem Lexeme.writable_longest {c : Char} {cs : List Char} {t : Token} (h : (longest c cs).reading = .ok t) :
    t.Writable := by
  unfold longest at h
  split at h
  · exact Token.writable_readNumber h
  · split at h
    · rename_i hc
      cases h
      exact Token.writable_readWord hc (List.all_eq_true.1 List.all_takeWhile)
    · exact writable_mark h

namespace Token

variable {p q : Position} {c : Char} {cs rest : List Char} {t : Token}

theorem scanFrom_end (h : skipTrivia false p cs = (q, [])) : scanFrom p cs = .ok [⟨.eof, q.spanOf []⟩] := by
  rw [scanFrom]
  split <;> simp_all

theorem scanFrom_token (h : skipTrivia false p cs = (q, c :: rest)) : scanFrom p cs =
    match (Lexeme.longest c rest).reading with
    | .error cause => .error ⟨cause, q.spanOf (c :: (Lexeme.longest c rest).more)⟩
    | .ok token => do
      let later ← scanFrom (q.after (c :: (Lexeme.longest c rest).more)) (rest.drop (Lexeme.longest c rest).more.length)
      return ⟨token, q.spanOf (c :: (Lexeme.longest c rest).more)⟩ :: later := by
  rw [scanFrom]
  split
  · simp_all
  · rename_i heq
    cases h.symm.trans heq
    rfl

/-- the tokens of a text are writable, and the end of the text comes after them -/
theorem tokens_scanFrom {p : Position} {cs : List Char} {ts : List Located} (h : scanFrom p cs = .ok ts) :
    ∃ body, tokens ts = body ++ [.eof] ∧ ∀ t ∈ body, t.Writable := by
  cases hskip : skipTrivia false p cs with
  | mk q left =>
    cases left with
    | nil =>
      rw [scanFrom_end hskip] at h
      cases h
      exact ⟨[], rfl, nofun⟩
    | cons c rest =>
      rw [scanFrom_token hskip] at h
      cases hreading : (Lexeme.longest c rest).reading with
      | error cause =>
        rw [hreading] at h
        cases h
      | ok t =>
        rw [hreading] at h
        cases hlater : scanFrom (q.after (c :: (Lexeme.longest c rest).more))
          (rest.drop (Lexeme.longest c rest).more.length) with
        | error e =>
          simp only [hlater] at h
          cases h
        | ok later =>
          simp only [hlater] at h
          cases h
          obtain ⟨body, hbody, hwritable⟩ := tokens_scanFrom hlater
          refine ⟨t :: body, by rw [tokens_cons, hbody]; rfl, ?_⟩
          exact List.forall_mem_cons.2 ⟨Lexeme.writable_longest hreading, hwritable⟩
termination_by cs.length
decreasing_by
  have := skipTrivia_rest hskip
  rw [List.length_drop]
  omega

/-! ## From writable tokens to a text -/

/-- the token is spelled by `c` and `more`, which read as it where a blank follows -/
def ReadsAs (t : Token) (c : Char) (more : List Char) : Prop :=
  ¬ isBlank c ∧ c ≠ '#' ∧ ∀ cs, Lexeme.longest c (more ++ ' ' :: cs) = ⟨more, .ok t⟩

theorem decimalValue_toDigits (n : Nat) : decimalValue (Nat.toDigits 10 n) = n := by
  conv_rhs => rw [← Nat.ofDigitChars_ten_toDigits (n := n)]
  rw [decimalValue, Nat.ofDigitChars_eq_foldl]

theorem takeWhile_blank {f : Char → Bool} {more cs : List Char} (hf : f ' ' = false) (h : ∀ d ∈ more, f d = true) :
    (more ++ ' ' :: cs).takeWhile f = more := by
  rw [List.takeWhile_append_of_pos h, List.takeWhile_cons_of_neg (by simp [hf]), List.append_nil]

/-- a character of some class starts a token if no blank and no `#` is of that class -/
theorem starts_of_class {f : Char → Bool} (hf : [' ', '\t', '\r', '\n', '#'].any f = false) (hc : f c = true) :
    ¬ isBlank c ∧ c ≠ '#' := by
  have hne (d : Char) (hd : d ∈ [' ', '\t', '\r', '\n', '#']) : c ≠ d := by
    rintro rfl
    exact absurd hc (List.any_eq_false.1 hf c hd)
  simp [isBlank, hne]

/-- a number that is not negative is spelled in digits -/
theorem toList_spelling_number {value : Int64} (h : 0 ≤ value) :
    ∃ n : Nat, value.toInt = n ∧ (number value).spelling.toList = Nat.toDigits 10 n := by
  have hvalue : 0 ≤ value.toInt := by simpa [Int64.le_iff_toInt_le] using h
  obtain ⟨n, hn⟩ := Int.eq_ofNat_of_zero_le hvalue
  refine ⟨n, hn, ?_⟩
  rw [spelling, hn]
  exact Nat.toList_repr

theorem number_readsAs {value : Int64} (h : 0 ≤ value) :
    ∃ c more, (number value).spelling.toList = c :: more ∧ (number value).ReadsAs c more := by
  obtain ⟨n, hn, hdigits⟩ := toList_spelling_number h
  obtain ⟨c, more, hlist⟩ := List.exists_cons_of_ne_nil (Nat.toDigits_ne_nil (b := 10) (n := n))
  have hall (d : Char) (hd : d ∈ c :: more) : d.isDigit = true := isDigit_of_mem_toDigits (hlist ▸ hd)
  obtain ⟨hc, hmore⟩ := List.forall_mem_cons.1 hall
  have hlt := value.toInt_lt
  have hread : readNumber (c :: more) = .ok (.number value) := by
    rw [readNumber, ← hlist, decimalValue_toDigits, if_pos (by rw [greatestWord]; omega)]
    congr 2
    rw [← Int64.toInt_inj, Int64.toInt_ofNat_of_lt (by omega), hn]
  obtain ⟨hblank, hcomment⟩ := starts_of_class (by decide) hc
  refine ⟨c, more, hdigits.trans hlist, hblank, hcomment, fun cs => ?_⟩
  rw [Lexeme.longest, if_pos hc, takeWhile_blank (by decide) hmore]
  exact congrArg _ hread

theorem not_isDigit_of_isNameStart (hc : isNameStart c = true) : ¬ c.isDigit := by
  rw [isNameStart, Bool.or_eq_true, decide_eq_true_eq] at hc
  obtain hc | rfl := hc
  · have hletter : 65 ≤ c.toNat ∧ c.toNat ≤ 90 ∨ 97 ≤ c.toNat ∧ c.toNat ≤ 122 :=
      (Bool.or_eq_true_iff.1 hc).imp of_decide_eq_true
        fun h => (Bool.and_eq_true_iff.1 h).imp of_decide_eq_true of_decide_eq_true
    rw [Char.isDigit_iff_toNat]
    change ¬ (48 ≤ c.toNat ∧ c.toNat ≤ 57)
    omega
  · decide

theorem word_readsAs {word : String} {c : Char} {more : List Char} (hword : word.toList = c :: more)
    (hc : isNameStart c = true) (hmore : ∀ d ∈ more, isNamePart d = true) : (readWord word).ReadsAs c more := by
  obtain ⟨hblank, hcomment⟩ := starts_of_class (by decide) hc
  refine ⟨hblank, hcomment, fun cs => ?_⟩
  rw [Lexeme.longest, if_neg (not_isDigit_of_isNameStart hc), if_pos hc, takeWhile_blank (by decide) hmore]
  simp only [← hword, String.ofList_toList]

theorem mark_readsAs (m : Mark) : ∃ c more, (mark m).spelling.toList = c :: more ∧ (mark m).ReadsAs c more := by
  cases m <;> refine ⟨_, _, rfl, by decide, by decide, fun cs => rfl⟩

theorem keyword_readsAs (k : Keyword) :
    ∃ c more, (keyword k).spelling.toList = c :: more ∧ (keyword k).ReadsAs c more := by
  have hk : readWord k.spelling = .keyword k := by cases k <;> decide
  rw [← hk]
  cases k <;> exact ⟨_, _, rfl, word_readsAs rfl (by decide) (List.all_eq_true.1 (by decide))⟩

theorem readsAs_of_writable (h : t.Writable) : ∃ c more, t.spelling.toList = c :: more ∧ t.ReadsAs c more := by
  cases t with
  | number value => exact number_readsAs h
  | ident name =>
    obtain ⟨⟨c, more, hname, hc, hmore⟩, hk⟩ := isName_iff.1 h
    have hread := word_readsAs hname hc hmore
    rw [readWord, Keyword.ofSpelling?_eq_none.2 hk] at hread
    exact ⟨c, more, hname, hread⟩
  | keyword k => exact keyword_readsAs k
  | mark m => exact mark_readsAs m
  | eof => cases h

/-- the tokens, with a blank after each -/
def spell (ts : List Token) : List Char := ts.flatMap fun t => t.spelling.toList ++ [' ']

theorem scanFrom_blank : scanFrom p (' ' :: cs) = scanFrom (p.next ' ') cs := by
  have hskip : skipTrivia false p (' ' :: cs) = skipTrivia false (p.next ' ') cs := by simp [skipTrivia, isBlank]
  cases hrest : skipTrivia false (p.next ' ') cs with
  | mk q rest =>
    rw [hrest] at hskip
    cases rest with
    | nil => rw [scanFrom_end hskip, scanFrom_end hrest]
    | cons c rest => rw [scanFrom_token hskip, scanFrom_token hrest]

theorem scanFrom_spell {body : List Token} (h : ∀ t ∈ body, t.Writable) (p : Position) :
    ∃ ts, scanFrom p (spell body) = .ok ts ∧ tokens ts = body ++ [.eof] := by
  induction body generalizing p with
  | nil => exact ⟨_, scanFrom_end rfl, rfl⟩
  | cons t body ih =>
    obtain ⟨ht, hbody⟩ := List.forall_mem_cons.1 h
    obtain ⟨c, more, hspelling, hblank, hcomment, hlongest⟩ := readsAs_of_writable ht
    have hspell : spell (t :: body) = c :: (more ++ ' ' :: spell body) := by simp [spell, hspelling]
    have hskip : skipTrivia false p (spell (t :: body)) = (p, c :: (more ++ ' ' :: spell body)) := by
      simp [hspell, skipTrivia, hblank, hcomment]
    obtain ⟨ts, hts, htokens⟩ := ih hbody ((p.after (c :: more)).next ' ')
    refine ⟨⟨t, p.spanOf (c :: more)⟩ :: ts, ?_, by rw [tokens_cons, htokens]; rfl⟩
    rw [scanFrom_token hskip, hlongest]
    simp only [List.drop_left]
    rw [scanFrom_blank, hts]
    rfl

end Token

end ThreeMachines
