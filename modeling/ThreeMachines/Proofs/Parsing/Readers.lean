/-
What a reader of the parser does, said by what it reads and what it leaves.

A reader gets located tokens and gives a value, the tokens that are left and the evidence that they are fewer. Two
judgements speak of a reader without that evidence and without the places of the tokens:
- `Yields x Q`: if `x` succeeds, then `Q` holds of the value and of the tokens that are left;
- `Gives x Q`: `x` succeeds, and `Q` holds of the value and of the tokens that are left.
Each has one rule for a value and one for two readers in a row, so a proof about a reader follows its definition.
-/
import ThreeMachines.Syntax.Parse

namespace ThreeMachines.Parse

/-- the tokens without their places -/
def tokens (ts : List Located) : List Token := ts.map Located.token

@[simp] theorem tokens_nil : tokens [] = [] := rfl

@[simp] theorem tokens_cons (t : Located) (ts : List Located) : tokens (t :: ts) = t.token :: tokens ts := rfl

theorem tokens_eq_cons {ts : List Located} {t : Token} {w : List Token} (h : tokens ts = t :: w) :
    ∃ span rest, ts = ⟨t, span⟩ :: rest ∧ tokens rest = w := by
  cases ts with
  | nil => cases h
  | cons a rest =>
    cases h
    exact ⟨a.span, rest, rfl, rfl⟩

section
variable {α β : Type} {p : α × List Located → Prop} {q : β × List Located → Prop} {n : Nat}
  {Q Q' : α → List Token → Prop} {R : β → List Token → Prop}

/-- if the reader succeeds, `Q` holds of what it read and left -/
def Yields (x : Except SyntaxError { r : α × List Located // p r }) (Q : α → List Token → Prop) : Prop :=
  ∀ r, x = .ok r → Q r.1.1 (tokens r.1.2)

/-- the reader succeeds, and `Q` holds of what it read and left -/
def Gives (x : Except SyntaxError { r : α × List Located // p r }) (Q : α → List Token → Prop) : Prop :=
  ∃ r, x = .ok r ∧ Q r.1.1 (tokens r.1.2)

namespace Yields

theorem pure {r : { r : α × List Located // p r }} (h : Q r.1.1 (tokens r.1.2)) : Yields (Pure.pure r) Q := by
  rintro _ ⟨⟩
  exact h

theorem error (e : SyntaxError) : Yields (.error e : Except SyntaxError { r : α × List Located // p r }) Q := nofun

theorem mono {x : Except SyntaxError { r : α × List Located // p r }} (hx : Yields x Q)
    (h : ∀ a left, Q a left → Q' a left) : Yields x Q' :=
  fun r hr => h _ _ (hx r hr)

/-- a reader that takes a token, then another reader -/
theorem bind {x : Except SyntaxError { r : α × List Located // r.2.length < n }}
    {f : { r : α × List Located // r.2.length < n } → Except SyntaxError { r : β × List Located // q r }}
    (hx : Yields x Q) (hf : ∀ a left (h : left.length < n), Q a (tokens left) → Yields (f ⟨(a, left), h⟩) R) :
    Yields (x >>= f) R := by
  intro r hr
  cases x with
  | error e => cases hr
  | ok a => exact hf a.1.1 a.1.2 a.2 (hx a rfl) r hr

/-- a reader that may take no token, then another reader -/
theorem bindContinued {x : Except SyntaxError { r : α × List Located // r.2.length ≤ n }}
    {f : { r : α × List Located // r.2.length ≤ n } → Except SyntaxError { r : β × List Located // q r }}
    (hx : Yields x Q) (hf : ∀ a left (h : left.length ≤ n), Q a (tokens left) → Yields (f ⟨(a, left), h⟩) R) :
    Yields (x >>= f) R := by
  intro r hr
  cases x with
  | error e => cases hr
  | ok a => exact hf a.1.1 a.1.2 a.2 (hx a rfl) r hr

end Yields

namespace Gives

theorem pure {r : { r : α × List Located // p r }} (h : Q r.1.1 (tokens r.1.2)) : Gives (Pure.pure r) Q := ⟨r, rfl, h⟩

theorem and {x : Except SyntaxError { r : α × List Located // p r }} (hx : Gives x Q) (hy : Yields x Q') :
    Gives x fun a left => Q a left ∧ Q' a left := by
  obtain ⟨a, rfl, ha⟩ := hx
  exact ⟨a, rfl, ha, hy a rfl⟩

/-- a reader that takes a token, then another reader -/
theorem bind {x : Except SyntaxError { r : α × List Located // r.2.length < n }}
    {f : { r : α × List Located // r.2.length < n } → Except SyntaxError { r : β × List Located // q r }}
    (hx : Gives x Q) (hf : ∀ a left (h : left.length < n), Q a (tokens left) → Gives (f ⟨(a, left), h⟩) R) :
    Gives (x >>= f) R := by
  obtain ⟨a, rfl, ha⟩ := hx
  exact hf a.1.1 a.1.2 a.2 ha

/-- a reader that may take no token, then another reader -/
theorem bindContinued {x : Except SyntaxError { r : α × List Located // r.2.length ≤ n }}
    {f : { r : α × List Located // r.2.length ≤ n } → Except SyntaxError { r : β × List Located // q r }}
    (hx : Gives x Q) (hf : ∀ a left (h : left.length ≤ n), Q a (tokens left) → Gives (f ⟨(a, left), h⟩) R) :
    Gives (x >>= f) R := by
  obtain ⟨a, rfl, ha⟩ := hx
  exact hf a.1.1 a.1.2 a.2 ha

end Gives
end

end ThreeMachines.Parse
