/-
The table of function bodies of a program.

`lambdaTable_exact`: the closure and the vector machine have one body for each function literal of the expression, with
its parameters and its captures, the bodies inside a literal before its own. Each function is made at one place, right
after its captures have been packed, and no instruction reaches past the globals, captures or parameters that there are.
-/
import ThreeMachines.Proofs.Closure.Literals
import ThreeMachines.Proofs.Vector.Literals

namespace ThreeMachines

section
variable {ι : Type} [FunctionOps ι]

theorem count_madeIn [DecidableEq ι] (c : Code ι) (l : Label) :
    (madeIn c).count l = c.count (.own (FunctionOps.mkfunval l)) := by
  rw [madeIn, List.count_filterMap, List.count_eq_countP]
  refine List.countP_congr fun i _ => ?_
  simp [Instr.made_iff]

/-- a program whose functions are those of the literals, each made once and out of what it captures -/
structure Program.ExactTable [DecidableEq ι] (literals : List FunctionLiteral) (p : Program ι) : Prop where
  /-- one body for each literal -/
  renders : List.Forall₂ Renders literals p.lambdas.bodies
  innerFirst : InnerFirst p.lambdas.bodies
  once : ∀ body ∈ p.lambdas.bodies, p.instructions.count (.own (FunctionOps.mkfunval body.label)) = 1
  packed : ∀ stream ∈ p.code :: p.lambdas.bodies.map LambdaBody.code, Packed p.lambdas.bodies stream
  /-- the entry stream reaches globals, and no parameters -/
  entry : ∀ i ∈ p.code, i.Within p.globals.length 0
  /-- a body reaches what it has captured, and its parameters -/
  within : ∀ body ∈ p.lambdas.bodies, ∀ i ∈ body.code, i.Within body.captures.length body.params.length

theorem Tabled.exactTable [DecidableEq ι] [Operation ι] {literals : List FunctionLiteral} {p : Program ι}
    (h : Tabled p.globals.length 0 literals p.code p.lambdas.bodies) (hcheck : p.checkLabels = .ok ()) :
    p.ExactTable literals where
  renders := h.renders
  innerFirst := h.innerFirst
  once body hb := by
    have hnodup : (p.lambdas.bodies.map LambdaBody.label).Nodup :=
      (List.nodup_append.1 (Image.nodup_definitions hcheck)).2.1
    rw [Program.instructions, ← count_madeIn, madeIn_append]
    exact (h.made.count_eq body.label).trans (List.count_eq_one_of_mem hnodup (List.mem_map_of_mem hb))
  packed := List.forall_mem_cons.2 ⟨h.packed, List.forall_mem_map.2 h.packedIn⟩
  entry := h.within
  within := h.withinBodies

end

/-- **Tables of bodies.** A program for the closure or the vector machine has exactly one body for each function literal
of the expression, inner ones first, with the parameters of the literal and, in order, the names that it does not bind.
Each body is named by one `mkfunval`, which follows a `mkvec` of as many words as the body captures. Every `pushglob`
reaches a global or, in a body, one of its captures, and every `pushform` a parameter of its body. -/
theorem lambdaTable_exact (e : Expr) :
    (∀ p : Program Closure.Op, compile .closure e = .ok p → p.ExactTable (e.literals false)) ∧
      ∀ p : Program Vector.Op, compile .vector e = .ok p → p.ExactTable (e.literals true) := by
  refine ⟨fun p h => ?_, fun p h => ?_⟩
  · obtain ⟨d, -, hcheck⟩ := generate_of_compile h
    exact (Closure.tabled_compile h).exactTable hcheck
  · obtain ⟨d, -, hcheck⟩ := generate_of_compile h
    exact (Vector.tabled_compile h).exactTable hcheck

/-- a procedure with a local variable inside a function, both of which use a global and a variable around them -/
def nestedLiterals : Expr :=
  .block [("a", .number 1)] (.seq [.assign "g" (.number 2), .call (.lambda ["x"]
    (.call (.proc ["y"] ["z"] (.assign "g" (.binary .add (.var "x") (.binary .mul (.var "a") (.var "y"))))) [.var "x"]))
    [.var "g"]])

theorem lambdaTable_nestedLiterals : ∃ (p : Program Closure.Op) (q : Program Vector.Op),
    compile .closure nestedLiterals = .ok p ∧ compile .vector nestedLiterals = .ok q ∧
    p.ExactTable (nestedLiterals.literals false) ∧ q.ExactTable (nestedLiterals.literals true) ∧
    (nestedLiterals.literals true).map FunctionLiteral.captures = [["a", "g", "x"], ["a", "g"]] := by
  obtain ⟨p, hp⟩ := exists_of_isOk (m := .closure) (e := nestedLiterals) (by decide +kernel)
  obtain ⟨q, hq⟩ := exists_of_isOk (m := .vector) (e := nestedLiterals) (by decide +kernel)
  obtain ⟨hclosure, hvector⟩ := lambdaTable_exact nestedLiterals
  exact ⟨p, q, hp, hq, hclosure p hp, hvector q hq, by decide +kernel⟩

end ThreeMachines
