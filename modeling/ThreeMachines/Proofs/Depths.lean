/-
The depth of the stack at every instruction of a piece of code.

Every instruction belongs to the entry stream or to a routine, and finds the stack of its routine at one depth, whatever
way the run has taken to it (`Spot`). A `Segment` is a piece of code that can be annotated in this way from its beginning
to its end, with all its jumps inside of it. What a routine may reach in its frame is `Framed`, one instance for each
machine.

- `segment_ifThenElse`, `segment_whileDo`, `segment_doWhile`, `segment_countedLoop`: the skeletons of annotated parts.
- `Segment.body`, `Segment.inline`: a function, in a stream of its own or in the stream that makes it.
-/
import ThreeMachines.Code.Generator
import ThreeMachines.Proofs.Environments
import ThreeMachines.Proofs.Expressions

namespace ThreeMachines

/-- an expression in another one, or that one itself -/
def Expr.Within (part e : Expr) : Prop := Relation.ReflTransGen (fun a b => a ∈ b.children) part e

/-- a function of a program: its label, its parameters and its locals -/
structure Routine where
  entry : Label
  params : List String
  locals : List String

/-- the routine comes from a function literal in the expression -/
def Routine.OccursIn (r : Routine) (e : Expr) : Prop :=
  ∃ body, Expr.Within (.proc r.params r.locals body) e ∨ r.locals = [] ∧ Expr.Within (.lambda r.params body) e

/-- how the operations of a machine use the frame of the running routine; nothing stands for the entry stream -/
class Framed (ι : Type) where
  /-- the operation leaves the routine -/
  returns : ι → Bool
  /-- the depth at which a routine is left -/
  exit : Routine → Int
  /-- the words of the frame that the operation reads or writes are there -/
  Reaches : Option Routine → Int → ι → Prop
  /-- routines stand in the stream where `loadc` takes their addresses -/
  inline : Bool

variable {ι : Type} [Operation ι] [Framed ι]

namespace Instr

/-- the instruction may be followed by the next one -/
def fallsThrough : Instr ι → Bool
  | jump _ => false
  | own op => !Framed.returns op
  | _ => true

/-- where the instruction may jump to -/
def jumpsTo : Instr ι → Option Label
  | jump l | jumpz l => some l
  | _ => none

/-- the operation of the machine, if it is none of the instructions that all machines share -/
def operation : Instr ι → Option ι
  | own op => some op
  | _ => none

/-- the routine in the stream whose address is taken -/
def inline : Instr ι → Option Label
  | loadc (.addr l) => if Framed.inline ι then some l else none
  | _ => none

end Instr

/-! ## Annotated code -/

/-- an instruction with its owner and its depth -/
structure Spot (ι : Type) where
  instr : Instr ι
  owner : Option Routine
  depth : Int

/-- what holds at a spot among others -/
structure Spot.Sound (A : List (Spot ι)) (x : Spot ι) : Prop where
  nonneg : 0 ≤ x.depth
  jumps : ∀ l, x.instr.jumpsTo = some l → ⟨.label l, x.owner, x.depth + x.instr.effect⟩ ∈ A
  returns : ∀ op, x.instr = .own op → Framed.returns op → ∃ r, x.owner = some r ∧ x.depth = Framed.exit ι r
  reaches : ∀ op, x.instr = .own op → Framed.Reaches x.owner x.depth op
  inline : ∀ l, x.instr.inline = some l → ∃ r, r.entry = l ∧ ⟨.label l, some r, 0⟩ ∈ A

/-- the spot is sound, and belongs to `o` or to a routine of `F` -/
def Spot.Fits (F : Routine → Prop) (o : Option Routine) (A : List (Spot ι)) (x : Spot ι) : Prop :=
  x.Sound A ∧ (x.owner = o ∨ ∃ r, x.owner = some r ∧ F r)

namespace Spot

variable {F : Routine → Prop} {A B : List (Spot ι)} {x : Spot ι} {o : Option Routine} {d : Int}

theorem Sound.mono (h : x.Sound A) (hs : A ⊆ B) : x.Sound B where
  nonneg := h.nonneg
  jumps l hl := hs (h.jumps l hl)
  returns := h.returns
  reaches := h.reaches
  inline l hl := by
    obtain ⟨r, hr, hm⟩ := h.inline l hl
    exact ⟨r, hr, hs hm⟩

theorem Fits.mono (h : x.Fits F o A) (hs : A ⊆ B) : x.Fits F o B := ⟨h.1.mono hs, h.2⟩

/-- the instructions that all machines share ask for nothing but a depth that is not negative and for their targets -/
theorem Sound.common {i : Instr ι} (hd : 0 ≤ d) (hown : i.operation = none) (hi : i.inline = none)
    (hj : ∀ l, i.jumpsTo = some l → ⟨.label l, o, d + i.effect⟩ ∈ A) : (⟨i, o, d⟩ : Spot ι).Sound A where
  nonneg := hd
  jumps := hj
  returns op hop := by
    obtain rfl : i = .own op := hop
    cases hown
  reaches op hop := by
    obtain rfl : i = .own op := hop
    cases hown
  inline l hl := by
    rw [hi] at hl
    cases hl

/-- the address of a routine in the stream, pushed -/
theorem Sound.loadAddr {r : Routine} (hd : 0 ≤ d) (h : ⟨.label r.entry, some r, 0⟩ ∈ A) :
    (⟨.loadc (.addr r.entry), o, d⟩ : Spot ι).Sound A where
  nonneg := hd
  jumps _ hl := by cases hl
  returns _ hop := by cases hop
  reaches _ hop := by cases hop
  inline l hl := by
    rw [Instr.inline] at hl
    split at hl
    · obtain rfl := Option.some.inj hl
      exact ⟨r, rfl, h⟩
    · cases hl

/-- the return from a routine, at its depth -/
theorem Sound.leave {r : Routine} {op : ι} (hd : 0 ≤ Framed.exit ι r)
    (hr : Framed.Reaches (some r) (Framed.exit ι r) op) : (⟨.own op, some r, Framed.exit ι r⟩ : Spot ι).Sound A where
  nonneg := hd
  jumps _ hl := by cases hl
  returns _ _ _ := ⟨r, rfl, rfl⟩
  reaches _ hop := by
    cases hop
    exact hr
  inline _ hl := by cases hl

theorem Fits.plain {i : Instr ι} (hown : i.operation = none) (hi : i.inline = none) (hj : i.jumpsTo = none)
    (hd : 0 ≤ d) : (⟨i, o, d⟩ : Spot ι).Fits F o A := by
  refine ⟨.common hd hown hi fun l hl => ?_, .inl rfl⟩
  rw [hj] at hl
  cases hl

theorem Fits.label {l : Label} (hd : 0 ≤ d) : (⟨.label l, o, d⟩ : Spot ι).Fits F o A := .plain rfl rfl rfl hd

theorem Fits.jump {l : Label} (hd : 0 ≤ d) (h : ⟨.label l, o, d⟩ ∈ A) : (⟨.jump l, o, d⟩ : Spot ι).Fits F o A := by
  refine ⟨.common hd rfl rfl fun l' hl => ?_, .inl rfl⟩
  obtain rfl := Option.some.inj hl
  rwa [Instr.effect, Int.add_zero]

theorem Fits.jumpz {l : Label} {d' : Int} (hd : 0 ≤ d) (hd' : d = d' + 1) (h : ⟨.label l, o, d'⟩ ∈ A) :
    (⟨.jumpz l, o, d⟩ : Spot ι).Fits F o A := by
  refine ⟨.common hd rfl rfl fun l' hl => ?_, .inl rfl⟩
  obtain rfl := Option.some.inj hl
  rwa [Instr.effect, hd', Int.add_neg_cancel_right]

end Spot

/-- one spot after the other, from one owner and depth to another; after a jump or a return it goes on anywhere -/
inductive Flows : Option Routine → Int → List (Spot ι) → Option Routine → Int → Prop
  | nil {o d} : Flows o d [] o d
  | step {o d i A o' d'} : i.fallsThrough → Flows o (d + i.effect) A o' d' → Flows o d (⟨i, o, d⟩ :: A) o' d'
  | leave {o d i A o₁ d₁ o' d'} : i.fallsThrough = false → Flows o₁ d₁ A o' d' → Flows o d (⟨i, o, d⟩ :: A) o' d'

namespace Flows

variable {o o' o'' : Option Routine} {d d' d'' : Int} {A B : List (Spot ι)} {x : Spot ι}

theorem append (h : Flows o d A o' d') (h' : Flows o' d' B o'' d'') : Flows o d (A ++ B) o'' d'' := by
  induction h with
  | nil => exact h'
  | step hi _ ih => exact .step hi (ih h')
  | leave hi _ ih => exact .leave hi (ih h')

/-- an instruction that goes on to the next one -/
theorem cons {i : Instr ι} (hf : i.fallsThrough) (hd : d + i.effect = d') (h : Flows o d' A o' d'') :
    Flows o d (⟨i, o, d⟩ :: A) o' d'' := .step hf (hd ▸ h)

theorem head (h : Flows o d (x :: A) o' d') : x.owner = o ∧ x.depth = d := by
  cases h <;> exact ⟨rfl, rfl⟩

/-- the way on from an instruction leads to the next one, or out at the end -/
theorem next (h : Flows o d A o' d') {k : Nat} (hk : A[k]? = some x) (hx : x.instr.fallsThrough) :
    (∃ y, A[k + 1]? = some y ∧ y.owner = x.owner ∧ y.depth = x.depth + x.instr.effect) ∨
      k + 1 = A.length ∧ o' = x.owner ∧ d' = x.depth + x.instr.effect := by
  induction h generalizing k with
  | nil => cases hk
  | @step o d i A o' d' hi hA ih =>
    cases k with
    | succ k => simpa using ih hk
    | zero =>
      obtain rfl := Option.some.inj hk
      cases A with
      | nil =>
        cases hA
        exact .inr ⟨rfl, rfl, rfl⟩
      | cons y A => exact .inl ⟨y, rfl, hA.head⟩
  | leave hi hA ih =>
    cases k with
    | succ k => simpa using ih hk
    | zero =>
      obtain rfl := Option.some.inj hk
      rw [hi] at hx
      cases hx

end Flows

/-! ## Pieces of code -/

/-- the code can be annotated from a depth to another one, in the routine `o` and in routines of `F` that stand in it -/
def Segment (F : Routine → Prop) (o : Option Routine) (c : Code ι) (d d' : Int) : Prop :=
  ∃ A : List (Spot ι), A.map Spot.instr = c ∧ Flows o d A o d' ∧ ∀ x ∈ A, x.Fits F o A

namespace Segment

variable {F : Routine → Prop} {o : Option Routine} {c c' : Code ι} {d d' d'' : Int}

theorem nil : Segment F o ([] : Code ι) d d := ⟨[], rfl, .nil, by simp⟩

/-- the annotation, among more spots -/
theorem spots (h : Segment F o c d d') : ∃ A : List (Spot ι), A.map Spot.instr = c ∧ Flows o d A o d' ∧
    ∀ B, A ⊆ B → ∀ x ∈ A, x.Fits F o B := by
  obtain ⟨A, hc, hA, hs⟩ := h
  exact ⟨A, hc, hA, fun B hB x hx => (hs x hx).mono hB⟩

theorem append (h : Segment F o c d d') (h' : Segment F o c' d' d'') : Segment F o (c ++ c') d d'' := by
  obtain ⟨A, rfl, hA, hs⟩ := h.spots
  obtain ⟨B, rfl, hB, hs'⟩ := h'.spots
  exact ⟨A ++ B, List.map_append, hA.append hB,
    List.forall_mem_append.2 ⟨hs _ (List.subset_append_left A B), hs' _ (List.subset_append_right A B)⟩⟩

/-- one instruction that goes on to the next one -/
theorem single {i : Instr ι} (hd : 0 ≤ d) (hd' : d + i.effect = d') (hf : i.fallsThrough) (hj : i.jumpsTo = none)
    (hr : ∀ op, i = .own op → Framed.Reaches o d op) (hi : i.inline = none) : Segment F o [i] d d' := by
  refine ⟨[⟨i, o, d⟩], rfl, .cons hf hd' .nil, List.forall_mem_singleton.2 ⟨⟨hd, fun l hl => ?_, fun op hop hret => ?_, hr,
    fun l hl => ?_⟩, .inl rfl⟩⟩
  · rw [hj] at hl
    cases hl
  · subst hop
    rw [Instr.fallsThrough, hret] at hf
    cases hf
  · rw [hi] at hl
    cases hl

/-- a word pushed -/
theorem loadc {a : Int} (hd : 0 ≤ d) : Segment F o ([.loadc (.int a)] : Code ι) d (d + 1) :=
  single hd rfl rfl rfl nofun rfl

theorem pop (hd : 0 ≤ d) : Segment F o ([.pop] : Code ι) (d + 1) d :=
  single (by omega) (Int.add_neg_cancel_right d 1) rfl rfl nofun rfl

theorem unary {op : UnaryOp} (hd : 0 ≤ d) : Segment F o ([.unary op] : Code ι) (d + 1) (d + 1) :=
  single (by omega) (Int.add_zero _) rfl rfl nofun rfl

theorem binary {op : BinaryOp} (hd : 0 ≤ d) : Segment F o ([.binary op] : Code ι) (d + 1 + 1) (d + 1) :=
  single (by omega) (Int.add_neg_cancel_right _ 1) rfl rfl nofun rfl

/-- one operation of the machine -/
theorem own {op : ι} (hd : 0 ≤ d) (hd' : d + Operation.effect op = d') (hf : Framed.returns op = false)
    (hr : Framed.Reaches o d op) : Segment F o [.own op] d d' :=
  single hd hd' (by rw [Instr.fallsThrough, hf]; rfl) rfl (by rintro _ ⟨⟩; exact hr) rfl

end Segment

/-! ## Skeletons -/

section
variable {F : Routine → Prop} {o : Option Routine} {d : Int}

/-- **Branches** begin at one depth and end at one depth. -/
theorem segment_ifThenElse {start thenLabel elseLabel stop : Label} {cond thenBranch elseBranch : Code ι} (hd : 0 ≤ d)
    (hc : Segment F o cond d (d + 1)) (ht : Segment F o thenBranch d (d + 1)) (he : Segment F o elseBranch d (d + 1)) :
    Segment F o (Skeleton.ifThenElse start thenLabel elseLabel stop cond thenBranch elseBranch) d (d + 1) := by
  obtain ⟨C, rfl, hC, hCs⟩ := hc.spots
  obtain ⟨T, rfl, hT, hTs⟩ := ht.spots
  obtain ⟨E, rfl, hE, hEs⟩ := he.spots
  have hd' : 0 ≤ d + 1 := by omega
  refine ⟨[⟨.label start, o, d⟩] ++ C ++ [⟨.jumpz elseLabel, o, d + 1⟩, ⟨.label thenLabel, o, d⟩] ++ T ++
    [⟨.jump stop, o, d + 1⟩, ⟨.label elseLabel, o, d⟩] ++ E ++ [⟨.label stop, o, d + 1⟩], ?_, ?_, ?_⟩
  · simp [Skeleton.ifThenElse]
  · have hbefore : Flows (ι := ι) o d [⟨.label start, o, d⟩] o d := .cons rfl (by simp [Instr.effect]) .nil
    have hthen : Flows (ι := ι) o (d + 1) [⟨.jumpz elseLabel, o, d + 1⟩, ⟨.label thenLabel, o, d⟩] o d :=
      .cons rfl (by simp [Instr.effect]) (.cons rfl (by simp [Instr.effect]) .nil)
    have helse : Flows (ι := ι) o (d + 1) [⟨.jump stop, o, d + 1⟩, ⟨.label elseLabel, o, d⟩] o d :=
      .leave rfl (.cons rfl (by simp [Instr.effect]) .nil)
    have hafter : Flows (ι := ι) o (d + 1) [⟨.label stop, o, d + 1⟩] o (d + 1) :=
      .cons rfl (by simp [Instr.effect]) .nil
    exact (((((hbefore.append hC).append hthen).append hT).append helse).append hE).append hafter
  · simp only [List.forall_mem_append, List.forall_mem_cons, List.not_mem_nil, IsEmpty.forall_iff, implies_true, and_true]
    exact ⟨⟨⟨⟨⟨⟨.label hd, hCs _ fun x hx => by simp [hx]⟩, .jumpz hd' rfl (by simp), .label hd⟩,
      hTs _ fun x hx => by simp [hx]⟩, .jump hd' (by simp), .label hd⟩, hEs _ fun x hx => by simp [hx]⟩, .label hd'⟩

/-- **While loops.** Each pass finds the value of the last one on the stack. -/
theorem segment_whileDo {start stop : Label} {neutral cond body : Code ι} (hd : 0 ≤ d)
    (hn : Segment F o neutral d (d + 1)) (hc : Segment F o cond (d + 1) (d + 1 + 1))
    (hb : Segment F o body d (d + 1)) :
    Segment F o (Skeleton.whileDo start stop neutral cond body) d (d + 1) := by
  obtain ⟨N, rfl, hN, hNs⟩ := hn.spots
  obtain ⟨C, rfl, hC, hCs⟩ := hc.spots
  obtain ⟨B, rfl, hB, hBs⟩ := hb.spots
  have hd' : 0 ≤ d + 1 := by omega
  have hd'' : 0 ≤ d + 1 + 1 := by omega
  refine ⟨N ++ [⟨.label start, o, d + 1⟩] ++ C ++ [⟨.jumpz stop, o, d + 1 + 1⟩, ⟨.pop, o, d + 1⟩] ++ B ++
    [⟨.jump start, o, d + 1⟩, ⟨.label stop, o, d + 1⟩], ?_, ?_, ?_⟩
  · simp [Skeleton.whileDo]
  · have hbefore : Flows (ι := ι) o (d + 1) [⟨.label start, o, d + 1⟩] o (d + 1) :=
      .cons rfl (by simp [Instr.effect]) .nil
    have htest : Flows (ι := ι) o (d + 1 + 1) [⟨.jumpz stop, o, d + 1 + 1⟩, ⟨.pop, o, d + 1⟩] o d :=
      .cons rfl (by simp [Instr.effect]) (.cons rfl (by simp [Instr.effect]) .nil)
    have hafter : Flows (ι := ι) o (d + 1) [⟨.jump start, o, d + 1⟩, ⟨.label stop, o, d + 1⟩] o (d + 1) :=
      .leave rfl (.cons rfl (by simp [Instr.effect]) .nil)
    exact ((((hN.append hbefore).append hC).append htest).append hB).append hafter
  · simp only [List.forall_mem_append, List.forall_mem_cons, List.not_mem_nil, IsEmpty.forall_iff, implies_true, and_true]
    exact ⟨⟨⟨⟨⟨hNs _ fun x hx => by simp [hx], .label hd'⟩, hCs _ fun x hx => by simp [hx]⟩,
      .jumpz hd'' rfl (by simp), .plain rfl rfl rfl hd'⟩, hBs _ fun x hx => by simp [hx]⟩, .jump hd' (by simp),
      .label hd'⟩

/-- **Loops with the test at the end.** -/
theorem segment_doWhile {start stop : Label} {body cond : Code ι} (hd : 0 ≤ d) (hb : Segment F o body d (d + 1))
    (hc : Segment F o cond (d + 1) (d + 1 + 1)) :
    Segment F o (Skeleton.doWhile start stop body cond) d (d + 1) := by
  obtain ⟨B, rfl, hB, hBs⟩ := hb.spots
  obtain ⟨C, rfl, hC, hCs⟩ := hc.spots
  have hd' : 0 ≤ d + 1 := by omega
  have hd'' : 0 ≤ d + 1 + 1 := by omega
  refine ⟨[⟨.label start, o, d⟩] ++ B ++ C ++ [⟨.jumpz stop, o, d + 1 + 1⟩, ⟨.pop, o, d + 1⟩, ⟨.jump start, o, d⟩,
    ⟨.label stop, o, d + 1⟩], ?_, ?_, ?_⟩
  · simp [Skeleton.doWhile]
  · have hbefore : Flows (ι := ι) o d [⟨.label start, o, d⟩] o d := .cons rfl (by simp [Instr.effect]) .nil
    have hafter : Flows (ι := ι) o (d + 1 + 1) [⟨.jumpz stop, o, d + 1 + 1⟩, ⟨.pop, o, d + 1⟩, ⟨.jump start, o, d⟩,
        ⟨.label stop, o, d + 1⟩] o (d + 1) :=
      .cons rfl (by simp [Instr.effect]) (.cons rfl (by simp [Instr.effect])
        (.leave rfl (.cons rfl (by simp [Instr.effect]) .nil)))
    exact ((hbefore.append hB).append hC).append hafter
  · simp only [List.forall_mem_append, List.forall_mem_cons, List.not_mem_nil, IsEmpty.forall_iff, implies_true, and_true]
    exact ⟨⟨⟨.label hd, hBs _ fun x hx => by simp [hx]⟩, hCs _ fun x hx => by simp [hx]⟩, .jumpz hd'' rfl (by simp),
      .plain rfl rfl rfl hd', .jump hd (by simp), .label hd'⟩

/-- **Counted loops.** The counter lies on the value at the test, and under the words of the body. -/
theorem segment_countedLoop {start stop : Label} {neutral count body : Code ι} (hd : 0 ≤ d)
    (hn : Segment F o neutral d (d + 1)) (hc : Segment F o count (d + 1) (d + 1 + 1))
    (hb : Segment F o body (d + 1) (d + 1 + 1)) :
    Segment F o (Skeleton.countedLoop start stop neutral count body) d (d + 1) := by
  obtain ⟨N, rfl, hN, hNs⟩ := hn.spots
  obtain ⟨C, rfl, hC, hCs⟩ := hc.spots
  obtain ⟨B, rfl, hB, hBs⟩ := hb.spots
  have hd₁ : 0 ≤ d + 1 := by omega
  have hd₂ : 0 ≤ d + 1 + 1 := by omega
  have hd₃ : 0 ≤ d + 1 + 1 + 1 := by omega
  have hd₄ : 0 ≤ d + 1 + 1 + 1 + 1 := by omega
  refine ⟨N ++ C ++ [⟨.label start, o, d + 1 + 1⟩, ⟨.dup, o, d + 1 + 1⟩, ⟨.loadc (.int 0), o, d + 1 + 1 + 1⟩,
    ⟨.binary .gt, o, d + 1 + 1 + 1 + 1⟩, ⟨.jumpz stop, o, d + 1 + 1 + 1⟩, ⟨.dec, o, d + 1 + 1⟩, ⟨.swap, o, d + 1 + 1⟩,
    ⟨.pop, o, d + 1 + 1⟩] ++ B ++ [⟨.swap, o, d + 1 + 1⟩, ⟨.jump start, o, d + 1 + 1⟩, ⟨.label stop, o, d + 1 + 1⟩,
    ⟨.pop, o, d + 1 + 1⟩], ?_, ?_, ?_⟩
  · simp [Skeleton.countedLoop]
  · refine (((hN.append hC).append ?_).append hB).append ?_
    · exact .cons rfl (by simp [Instr.effect]) (.cons rfl (by simp [Instr.effect]) (.cons rfl (by simp [Instr.effect])
        (.cons rfl (by simp [Instr.effect]) (.cons rfl (by simp [Instr.effect]) (.cons rfl (by simp [Instr.effect])
          (.cons rfl (by simp [Instr.effect]) (.cons rfl (by simp [Instr.effect]) .nil)))))))
    · exact .cons rfl (by simp [Instr.effect]) (.leave rfl (.cons rfl (by simp [Instr.effect])
        (.cons rfl (by simp [Instr.effect]) .nil)))
  · simp only [List.forall_mem_append, List.forall_mem_cons, List.not_mem_nil, IsEmpty.forall_iff, implies_true, and_true]
    exact ⟨⟨⟨⟨hNs _ fun x hx => by simp [hx], hCs _ fun x hx => by simp [hx]⟩, .label hd₂, .plain rfl rfl rfl hd₂,
      .plain rfl rfl rfl hd₃, .plain rfl rfl rfl hd₄, .jumpz hd₃ rfl (by simp), .plain rfl rfl rfl hd₂,
      .plain rfl rfl rfl hd₂, .plain rfl rfl rfl hd₂⟩, hBs _ fun x hx => by simp [hx]⟩, .plain rfl rfl rfl hd₂,
      .jump hd₂ (by simp), .label hd₂, .plain rfl rfl rfl hd₂⟩

end

/-! ## Bodies and programs -/

/-- the code is the body of a routine, which it does not run out of -/
def BodyOf (r : Routine) (c : Code ι) : Prop :=
  ∃ A : List (Spot ι), A.map Spot.instr = c ∧ (∀ o d, Flows (some r) 0 A o d) ∧
    ∀ x ∈ A, x.Fits (fun _ => False) (some r) A

/-- the body is that of a function literal in the expression -/
def FromLiteral (e : Expr) (body : LambdaBody ι) : Prop :=
  ∃ r : Routine, r.entry = body.label ∧ r.params = body.params ∧ r.OccursIn e ∧ BodyOf r body.code

/-- a body ends in an instruction that leaves it -/
theorem Segment.body {r : Routine} {c : Code ι} {op : ι} (h : Segment (fun _ => False) (some r) c 0 (Framed.exit ι r))
    (hop : Framed.returns op) (hd : 0 ≤ Framed.exit ι r) (hr : Framed.Reaches (some r) (Framed.exit ι r) op) :
    BodyOf r (c ++ [.own op]) := by
  obtain ⟨A, rfl, hA, hs⟩ := h.spots
  refine ⟨A ++ [⟨.own op, some r, Framed.exit ι r⟩], by simp, fun o d => ?_, ?_⟩
  · exact hA.append (.leave (by rw [Instr.fallsThrough, hop]; rfl) (.nil : Flows o d [] o d))
  · refine List.forall_mem_append.2 ⟨hs _ (List.subset_append_left _ _), List.forall_mem_singleton.2 ⟨?_, .inl rfl⟩⟩
    exact .leave hd hr

/-- a routine in the stream, behind a jump, and its address pushed -/
theorem Segment.inline {F : Routine → Prop} {o : Option Routine} {r : Routine} {c : Code ι} {op : ι} {stop : Label} {d : Int}
    (hF : F r) (h : Segment F (some r) c 0 (Framed.exit ι r)) (hop : Framed.returns op) (hexit : 0 ≤ Framed.exit ι r)
    (hr : Framed.Reaches (some r) (Framed.exit ι r) op) (hd : 0 ≤ d) :
    Segment F o ([.jump stop, .label r.entry] ++ c ++ [.own op, .label stop, .loadc (.addr r.entry)]) d (d + 1) := by
  obtain ⟨A, rfl, hA, hs⟩ := h.spots
  refine ⟨[⟨.jump stop, o, d⟩, ⟨.label r.entry, some r, 0⟩] ++ A ++ [⟨.own op, some r, Framed.exit ι r⟩,
    ⟨.label stop, o, d⟩, ⟨.loadc (.addr r.entry), o, d⟩], by simp, ?_, ?_⟩
  · have hbefore : Flows (ι := ι) o d [⟨.jump stop, o, d⟩, ⟨.label r.entry, some r, 0⟩] (some r) 0 :=
      .leave rfl (.cons rfl rfl .nil)
    have hafter : Flows (ι := ι) (some r) (Framed.exit ι r) [⟨.own op, some r, Framed.exit ι r⟩, ⟨.label stop, o, d⟩,
        ⟨.loadc (.addr r.entry), o, d⟩] o (d + 1) :=
      .leave (by rw [Instr.fallsThrough, hop]; rfl) (.cons rfl (Int.add_zero d) (.cons rfl rfl .nil))
    exact (hbefore.append hA).append hafter
  · simp only [List.forall_mem_append, List.forall_mem_cons, List.not_mem_nil, IsEmpty.forall_iff, implies_true, and_true]
    refine ⟨⟨⟨.jump hd (by simp), .common le_rfl rfl rfl (by simp [Instr.jumpsTo]), .inr ⟨r, rfl, hF⟩⟩,
      fun x hx => ⟨(hs _ (fun y hy => by simp [hy]) x hx).1, ?_⟩⟩, ?_, .label hd, ?_⟩
    · rcases (hs A (List.Subset.refl A) x hx).2 with howner | hin
      exacts [.inr ⟨r, howner, hF⟩, .inr hin]
    · exact ⟨.leave hexit hr, .inr ⟨r, rfl, hF⟩⟩
    · exact ⟨.loadAddr hd (by simp), .inl rfl⟩

/-! ## Bindings of a scope -/

/-- all bindings that are seen have the property -/
def Scope.Each (P : Binding → Prop) (ρ : Scope) : Prop := ∀ x b, ρ x = some b → P b

namespace Scope.Each

variable {P Q : Binding → Prop} {ρ : Scope} {bindings : List Binding}

theorem empty : Scope.Each P .empty := nofun

theorem imp (h : ρ.Each P) (hPQ : ∀ b, P b → Q b) : ρ.Each Q := fun x b hb => hPQ b (h x b hb)

theorem extend (h : ρ.Each P) (hb : ∀ b ∈ bindings, P b) : (ρ.extend bindings).Each P := fun x b hx => by
  rcases Scope.mem_of_extend hx with hm | hρ
  exacts [hb b hm, h x b hρ]

end Scope.Each

end ThreeMachines
