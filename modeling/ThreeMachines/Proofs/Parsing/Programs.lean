/-
The parser accepts the programs of the grammar, and nothing else.

A text that falls into tokens is parsed exactly if its tokens before the end derive from the grammar's program, and
the expression that is returned is the one of such a derivation (`parses_iff_program`). The grammar is ambiguous and
the parser takes whatever may belong to the phrase at hand; that this never spoils a text is what `items_gives` and
its fellows say.
-/
import ThreeMachines.Proofs.Parsing.Completeness
import ThreeMachines.Proofs.Parsing.Scanning

namespace ThreeMachines

open Parse Grammar

theorem Token.tokens_scan {text : String} {ts : List Located} (h : scan text = .ok ts) :
    ∃ body, tokens ts = body ++ [.eof] ∧ .eof ∉ body := by
  obtain ⟨body, hbody, hwritable⟩ := tokens_scanFrom h
  exact ⟨body, hbody, fun heof => hwritable _ heof⟩

theorem Expr.parse_eq_program {text : String} {ts : List Located} (h : Token.scan text = .ok ts) :
    parse text = program ts := by
  rw [parse, h]
  rfl

namespace Parse

theorem program_eq_ok_iff {ts : List Located} {e : Expr} : program ts = .ok e ↔
    ∃ r, items ts = .ok r ∧ (∃ w, tokens r.1.2 = .eof :: w) ∧ e = .ofItems r.1.1 := by
  unfold program
  cases hitems : items ts with
  | error error => simp [bind, Except.bind]
  | ok r =>
    obtain ⟨⟨inner, rest⟩, hrest⟩ := r
    simp only [bind, Except.bind, Except.ok.injEq, exists_eq_left']
    split
    · simp [pure, Except.pure, eq_comm]
    · rename_i hend
      refine ⟨nofun, ?_⟩
      rintro ⟨⟨w, hw⟩, -⟩
      obtain ⟨span, more, rfl, -⟩ := tokens_eq_cons hw
      exact absurd rfl (hend span more)

variable {ts : List Located} {body : List Token}

theorem program_sound (hts : tokens ts = body ++ [.eof]) (hbody : .eof ∉ body) {e : Expr} (h : program ts = .ok e) :
    Grammar.Program body e := by
  obtain ⟨r, hitems, ⟨w, hw⟩, rfl⟩ := program_eq_ok_iff.1 h
  obtain ⟨u, hu, hinner⟩ := items_yields ts r hitems
  rw [hts, hw] at hu
  obtain ⟨v, rfl, hv⟩ | ⟨v, rfl, hv⟩ := List.append_eq_append_iff.1 hu
  · cases v with
    | nil => exact .items (by simpa using hinner)
    | cons t v => simp at hv
  · cases v with
    | nil => exact .items (by simpa using hinner)
    | cons t v =>
      cases hv
      simp at hbody

theorem program_complete (hts : tokens ts = body ++ [.eof]) {e : Expr} (h : Grammar.Program body e) :
    ∃ e, program ts = .ok e := by
  obtain ⟨h⟩ := h
  have hmem : tokens ts ∈ phrases Sequence * (just .eof * {[]}) :=
    hts ▸ Language.append_mem_mul (mem_phrases h) (cons_mem_just_mul rfl)
  obtain ⟨r, hitems, hleft⟩ := items_gives (.separator (by rfl)) (just_mul_starts (by simp)) hmem
  obtain ⟨w, -, hw⟩ := mem_just_mul.1 hleft
  exact ⟨_, program_eq_ok_iff.2 ⟨r, hitems, ⟨w, hw⟩, rfl⟩⟩

end Parse

/-- **Acceptance.** A text that falls into tokens is parsed exactly if the tokens before its end are a program, and to
the expression of a derivation. -/
theorem parses_iff_program {text : String} {ts : List Located} (h : Token.scan text = .ok ts) :
    ∃ body, tokens ts = body ++ [.eof] ∧ .eof ∉ body ∧
      ((∃ e, Expr.parse text = .ok e) ↔ ∃ e, Grammar.Program body e) ∧
        ∀ e, Expr.parse text = .ok e → Grammar.Program body e := by
  obtain ⟨body, hbody, heof⟩ := Token.tokens_scan h
  have hsound (e : Expr) (he : Expr.parse text = .ok e) : Grammar.Program body e :=
    program_sound hbody heof (Expr.parse_eq_program h ▸ he)
  refine ⟨body, hbody, heof, ⟨fun ⟨e, he⟩ => ⟨e, hsound e he⟩, fun ⟨e, he⟩ => ?_⟩, hsound⟩
  rw [Expr.parse_eq_program h]
  exact program_complete hbody he

/-- an `else` that may belong to two `if`s goes to the second -/
theorem parses_iff_program_danglingElse : ∃ ts body, Token.scan "if a then if b then 1 else -x * y" = .ok ts ∧
    tokens ts = body ++ [.eof] ∧ .eof ∉ body ∧
      Grammar.Program body (.ite (.var "a") (.ite (.var "b") (.number 1)
        (some (.binary .mul (.unary .neg (.var "x")) (.var "y")))) none) := by
  have hscan : ∃ ts, Token.scan "if a then if b then 1 else -x * y" = .ok ts :=
    ⟨_, by with_unfolding_all rfl⟩
  have hparse : Expr.parse "if a then if b then 1 else -x * y" = .ok (.ite (.var "a") (.ite (.var "b") (.number 1)
      (some (.binary .mul (.unary .neg (.var "x")) (.var "y")))) none) := by with_unfolding_all rfl
  obtain ⟨ts, hts⟩ := hscan
  obtain ⟨body, hbody, heof, -, hprogram⟩ := parses_iff_program hts
  exact ⟨ts, body, hts, hbody, heof, hprogram _ hparse⟩

end ThreeMachines
