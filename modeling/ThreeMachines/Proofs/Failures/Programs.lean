/-
Which errors a program can have.

The labels of a generated program are always in order, so an expression without a program has none because its generator
failed, and this is for something that is wrong with the expression (`blame_of_compile`). A text spells no sequence without
items, and no expression that was read is refused for one (`errors_of_parsed`): what is left are names that stand for
nothing, constructs that the machine does not offer, and names that one frame binds twice. The last are the only ones to
be reported as a fault of the compiler (`repeatedParameter_fault`).
-/
import ThreeMachines.Proofs.Closure.Failures
import ThreeMachines.Proofs.Parsing.Programs
import ThreeMachines.Proofs.Parsing.WellFormed
import ThreeMachines.Proofs.Stack.Failures
import ThreeMachines.Proofs.Vector.Failures

namespace ThreeMachines

variable {m : Machine} {e : Expr} {er : CompileError} {text : String}

/-- an expression without a program has a generator that fails, with the same error -/
theorem error_of_compile (h : compile m e = .error er) : ∃ d, generate m e ⟨.new, .empty, .empty⟩ = .error er d := by
  cases hgen : generate m e ⟨.new, .empty, .empty⟩ with
  | ok p d =>
    obtain ⟨q, hq⟩ := exists_compile_iff.2 ⟨p, d, hgen⟩
    cases hq.symm.trans h
  | error er' d =>
    simp only [compile, Gen.inSession, EStateM.run, hgen, bind, Except.bind] at h
    cases h
    exact ⟨d, rfl⟩

/-- **Expressions.** An expression that has no program is refused for something that is wrong with it. -/
theorem blame_of_compile (h : compile m e = .error er) : Blame m e er := by
  obtain ⟨d, hgen⟩ := error_of_compile h
  cases m with
  | stack => exact Stack.blames_generate hgen
  | closure => exact Closure.blames_generate hgen
  | vector => exact Vector.blames_generate hgen

/-- a well-formed expression has an item in each of its sequences -/
theorem hasItems_of_wellFormed (h : e.wellFormed) : e.everywhere Expr.hasItems := by
  induction e using Expr.byParts with
  | step e ih =>
    obtain ⟨hnode, hparts⟩ := Expr.wellFormed_iff.1 h
    refine Expr.everywhere_iff.2 ⟨?_, fun part hp => ih part hp (hparts part hp)⟩
    cases e with
    | seq items => cases items with
      | nil => cases hnode
      | cons item rest => rfl
    | _ => rfl

/-- an expression that was read is well-formed -/
theorem wellFormed_of_parse (h : Expr.parse text = .ok e) : e.wellFormed := by
  cases hscan : Token.scan text with
  | error error =>
    rw [Expr.parse, hscan] at h
    cases h
  | ok ts =>
    obtain ⟨body, hbody, hwritable⟩ := Token.tokens_scanFrom hscan
    rw [Expr.parse_eq_program hscan] at h
    obtain ⟨hitems⟩ := Parse.program_sound hbody (fun heof => hwritable _ heof) h
    exact Expr.wellFormed_ofItems hitems.ne_nil (Grammar.sequence_wellFormed hitems hwritable)

/-- **Texts.** A text that is read and has no program uses a name that stands for nothing, needs what the machine does not
offer, or binds a name twice in one frame. -/
theorem errors_of_parsed (hparse : Expr.parse text = .ok e) (h : compile m e = .error er) :
    (∃ x, er = .undefinedVariable x) ∨ (∃ c, er = .unsupported c m ∧ m ≠ .vector) ∨
      ∃ x b, er = .internal (.alreadyBound x b) ∧ e.bindsTwice m x := by
  cases blame_of_compile h with
  | undefined x => exact .inl ⟨x, rfl⟩
  | capturing hm _ x => exact .inr (.inl ⟨_, rfl, by simp [hm]⟩)
  | assigning hm x => exact .inr (.inl ⟨_, rfl, by simp [hm]⟩)
  | repeated hx b => exact .inr (.inr ⟨_, b, rfl, hx⟩)
  | empty hempty => exact absurd (hasItems_of_wellFormed (wellFormed_of_parse hparse)) hempty

/-- a name that nothing assigns -/
theorem errors_of_parsed_unassigned : Expr.parse "z + 1" = .ok (.binary .add (.var "z") (.number 1)) ∧
    compile .vector (.binary .add (.var "z") (.number 1)) = .error (.undefinedVariable "z") ∧
    ((∃ x, CompileError.undefinedVariable "z" = .undefinedVariable x) ∨
      (∃ c, CompileError.undefinedVariable "z" = .unsupported c .vector ∧ Machine.vector ≠ .vector) ∨
      ∃ x b, CompileError.undefinedVariable "z" = .internal (.alreadyBound x b) ∧
        Expr.bindsTwice .vector x (.binary .add (.var "z") (.number 1))) := by
  have hparse : Expr.parse "z + 1" = .ok (.binary .add (.var "z") (.number 1)) := by with_unfolding_all rfl
  have hcompile : compile .vector (.binary .add (.var "z") (.number 1)) = .error (.undefinedVariable "z") := rfl
  exact ⟨hparse, hcompile, errors_of_parsed hparse hcompile⟩

/-- a parameter that comes twice is a fault of the text, and reported as one of the compiler -/
theorem repeatedParameter_fault : Expr.parse "(a, a) -> a" = .ok (.lambda ["a", "a"] (.var "a")) ∧
    compile .stack (.lambda ["a", "a"] (.var "a")) = .error (.internal (.alreadyBound "a" ⟨"a", .formal, -16⟩)) :=
  ⟨by with_unfolding_all rfl, rfl⟩

end ThreeMachines
