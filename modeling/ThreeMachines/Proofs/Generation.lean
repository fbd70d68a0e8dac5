/-
What a run of a code generator did, read off its result.

A generator that succeeds has gone through its steps one after the other, and each step says what it found and what it
left (`Gen.bind_ok` and the lemmas on the single steps). Of the scope table it is enough to know what the names stand
for: `ScopeTable.sees` is that view of a scope, `Scope.extend` is the view from a scope opened inside, and later steps
do not change it (`Draft.Extends`).
-/
import Mathlib.Tactic
import ThreeMachines.Compile

namespace ThreeMachines

/-- what names stand for; a name that is not there has no address -/
abbrev Scope := String → Option Binding

namespace Scope

def empty : Scope := fun _ => none

/-- the view from a scope with these bindings; a name of its own hides the same name outside -/
def extend (ρ : Scope) (bindings : List Binding) : Scope := fun x =>
  match bindings.find? fun b => b.name = x with
  | some b => some b
  | none => ρ x

end Scope

/-! ## Views of a scope table -/

namespace ScopeTable

/-- what the names stand for that are bound and visible from a scope -/
def sees (t : ScopeTable) (s : ScopeId) : Scope := fun x =>
  match t.slot? s x with
  | some (.bound b) => some b
  | _ => none

variable {t : ScopeTable} {s : ScopeId} {x : String} {b : Binding}

theorem lookup_ok : t.lookup s x = .ok b ↔ t.sees s x = some b := by
  rw [lookup, sees]
  split <;> rename_i h <;> simp [h]

theorem chainIn_append (newer older : List Frame) (hs : s.index < older.length) :
    chainIn (newer ++ older) (newer.length + older.length) s = chainIn older older.length s := by
  induction newer with
  | nil => rw [List.nil_append, List.length_nil, Nat.zero_add]
  | cons f newer ih =>
    rw [List.cons_append, chainIn, List.length_cons, if_neg (by omega), ← ih]
    congr 1
    omega

theorem slot?_append (newer older : List Frame) (hs : s.index < older.length) :
    slot? ⟨newer ++ older⟩ s = slot? ⟨older⟩ s := by
  funext x
  rw [slot?, slot?, chain, chain, List.length_append, chainIn_append newer older hs]

theorem sees_append (newer older : List Frame) (hs : s.index < older.length) :
    sees ⟨newer ++ older⟩ s = sees ⟨older⟩ s := by
  funext x
  rw [sees, sees, slot?_append newer older hs]

theorem slot?_newest (f : Frame) (older : List Frame) (x : String) :
    slot? ⟨f :: older⟩ ⟨older.length⟩ x =
      (f.slots.lookup x).or (f.parent.bind fun parent => slot? ⟨older⟩ parent x) := by
  rw [slot?, chain, List.length_cons, chainIn, if_pos rfl, List.findSome?_cons]
  cases f.slots.lookup x with
  | some slot => rfl
  | none =>
    cases hf : f.parent with
    | none => rfl
    | some parent => rfl

/-- the slots of a scope whose names have been bound in order -/
def boundSlots (bindings : List Binding) : List (String × Slot) :=
  (bindings.map fun b => (b.name, Slot.bound b)).reverse ++ bindings.map fun b => (b.name, Slot.declared)

theorem lookup_reverse_bound {bindings : List Binding} (h : (bindings.map Binding.name).Nodup)
    (rest : List (String × Slot)) :
    ((bindings.map fun b => (b.name, Slot.bound b)).reverse ++ rest).lookup x =
      ((bindings.find? fun b => b.name = x).map Slot.bound).or (rest.lookup x) := by
  induction bindings generalizing rest with
  | nil => rfl
  | cons b bindings ih =>
    rw [List.map_cons, List.nodup_cons] at h
    rw [List.map_cons, List.reverse_cons, List.append_assoc, ih h.2, List.singleton_append, List.lookup_cons,
      List.find?_cons]
    by_cases hx : b.name = x
    · have hnone : bindings.find? (fun b => b.name = x) = none := by
        rw [List.find?_eq_none]
        intro b' hb' hn
        exact h.1 (List.mem_map.2 ⟨b', hb', (by simpa using hn : b'.name = x).trans hx.symm⟩)
      simp [hx, hnone]
    · have hb : (x == b.name) = false := beq_false_of_ne (Ne.symm hx)
      simp [hx, hb]

theorem lookup_boundSlots {bindings : List Binding} (h : (bindings.map Binding.name).Nodup) :
    (boundSlots bindings).lookup x = (bindings.find? fun b => b.name = x).map Slot.bound := by
  rw [boundSlots, lookup_reverse_bound h]
  cases hf : bindings.find? (fun b => b.name = x) with
  | some b => rfl
  | none =>
    rw [Option.map_none, Option.none_or, List.lookup_eq_none_iff]
    intro entry he
    obtain ⟨b, hb, rfl⟩ := List.mem_map.1 he
    have := List.find?_eq_none.1 hf b hb
    simp only [decide_eq_true_eq] at this
    simpa using Ne.symm this

/-- the view from a scope that has just been opened -/
theorem sees_newest {bindings : List Binding} (h : (bindings.map Binding.name).Nodup) (parent : Option ScopeId)
    (older : List Frame) :
    sees ⟨⟨parent, boundSlots bindings⟩ :: older⟩ ⟨older.length⟩ =
      (parent.elim Scope.empty (sees ⟨older⟩)).extend bindings := by
  funext x
  rw [sees, slot?_newest, lookup_boundSlots h, Scope.extend]
  cases bindings.find? (fun b => b.name = x) with
  | some b => rfl
  | none => cases parent <;> rfl

end ScopeTable

/-! ## Steps of a generator -/

namespace Gen

variable {ι α β : Type} {d d' : Draft ι}

theorem bind_ok {x : Gen ι α} {f : α → Gen ι β} {b : β} :
    (x >>= f) d = .ok b d' ↔ ∃ a d₁, x d = .ok a d₁ ∧ f a d₁ = .ok b d' := by
  show EStateM.bind x f d = _ ↔ _
  rw [EStateM.bind]
  cases x d with
  | ok a d₁ => simp
  | error e d₁ => simp

theorem pure_ok {a b : α} : (pure a : Gen ι α) d = .ok b d' ↔ a = b ∧ d = d' := by
  show EStateM.Result.ok a d = .ok b d' ↔ _
  simp

theorem get_ok {a : Draft ι} : (get : Gen ι (Draft ι)) d = .ok a d' ↔ d = a ∧ d = d' := by
  show EStateM.Result.ok d d = .ok a d' ↔ _
  simp

theorem set_ok {a : Draft ι} {u : PUnit} : (set a : Gen ι PUnit) d = .ok u d' ↔ d' = a := by
  show EStateM.Result.ok _ a = .ok u d' ↔ _
  simp [eq_comm]

theorem throw_ok {e : CompileError} {a : α} : ¬ (throw e : Gen ι α) d = .ok a d' := by
  show ¬ EStateM.Result.error e d = .ok a d'
  simp

/-- a draft after labels have been issued -/
def issued (d : Draft ι) (labels : LabelAllocator) : Draft ι := { d with session := { d.session with labels } }

theorem fresh_ok {kind : String} {l : Label} (h : fresh kind d = .ok l d') : ∃ labels, d' = issued d labels := by
  simp only [fresh, bind_ok, get_ok, set_ok, pure_ok] at h
  obtain ⟨_, _, ⟨rfl, rfl⟩, _, _, rfl, rfl, rfl⟩ := h
  exact ⟨_, rfl⟩

theorem lookup_ok {s : ScopeId} {x : String} {b : Binding} :
    lookup s x d = .ok b d' ↔ d' = d ∧ d.scopes.sees s x = some b := by
  rw [lookup, bind_ok, ← ScopeTable.lookup_ok]
  constructor
  · rintro ⟨_, _, hg, h⟩
    obtain ⟨rfl, rfl⟩ := get_ok.1 hg
    cases hb : d.scopes.lookup s x with
    | ok b' =>
      rw [hb] at h
      obtain ⟨rfl, rfl⟩ := pure_ok.1 h
      exact ⟨rfl, rfl⟩
    | error e =>
      rw [hb] at h
      exact absurd h throw_ok
  · rintro ⟨rfl, h⟩
    refine ⟨d', d', get_ok.2 ⟨rfl, rfl⟩, ?_⟩
    rw [h]
    rfl

theorem register_ok {body : LambdaBody ι} (h : register body d = .ok () d') :
    d' = { d with lambdas := ⟨d.lambdas.bodies ++ [body]⟩ } := by
  rw [register, bind_ok] at h
  obtain ⟨_, _, hg, h⟩ := h
  obtain ⟨rfl, rfl⟩ := get_ok.1 hg
  rw [LambdaTable.register] at h
  by_cases hb : d.lambdas.bodies.any fun other => other.label = body.label
  · rw [if_pos hb] at h
    exact absurd h throw_ok
  · rw [if_neg hb] at h
    exact set_ok.1 h

theorem bind_newest {f : Frame} {older : List Frame} {b : Binding} {t : ScopeTable}
    (h : ScopeTable.bind ⟨f :: older⟩ ⟨older.length⟩ b = .ok t) :
    t = ⟨{ f with slots := (b.name, .bound b) :: f.slots } :: older⟩ ∧
      ∀ b', f.slots.lookup b.name ≠ some (.bound b') := by
  have hown : ScopeTable.ownSlot? ⟨f :: older⟩ ⟨older.length⟩ b.name = f.slots.lookup b.name := by
    simp [ScopeTable.ownSlot?, ScopeTable.place]
  rw [ScopeTable.bind, hown] at h
  split at h
  · cases h
  · rename_i hb
    cases h
    exact ⟨by simp [ScopeTable.place], hb⟩

/-- names that are bound in the newest scope; each is bound once -/
theorem bindAll_ok {f : Frame} (older : List Frame) {bindings : List Binding}
    (h : bindAll ⟨older.length⟩ bindings { d with scopes := ⟨f :: older⟩ } = .ok () d') :
    d' = { d with scopes := ⟨{ f with
        slots := (bindings.map fun b => (b.name, Slot.bound b)).reverse ++ f.slots } :: older⟩ } ∧
      (bindings.map Binding.name).Nodup ∧ ∀ b ∈ bindings, ∀ b', f.slots.lookup b.name ≠ some (.bound b') := by
  induction bindings generalizing f with
  | nil =>
    obtain ⟨-, rfl⟩ := pure_ok.1 h
    simp
  | cons b rest ih =>
    rw [bindAll, bind_ok] at h
    obtain ⟨d₁, d₂, hg, h⟩ := h
    obtain ⟨rfl, rfl⟩ := get_ok.1 hg
    cases hb : ScopeTable.bind ⟨f :: older⟩ ⟨older.length⟩ b with
    | error e =>
      simp only [hb] at h
      exact absurd h throw_ok
    | ok t =>
      simp only [hb, bind_ok, set_ok] at h
      obtain ⟨_, _, rfl, h⟩ := h
      obtain ⟨rfl, hfree⟩ := bind_newest hb
      obtain ⟨rfl, hnodup, hnot⟩ := ih h
      have hnew : ∀ b' ∈ rest, b'.name ≠ b.name := by
        intro b' hb' hname
        have hl := hnot b' hb' b
        simp [hname] at hl
      refine ⟨by simp, ?_, ?_⟩
      · rw [List.map_cons, List.nodup_cons]
        refine ⟨fun hm => ?_, hnodup⟩
        obtain ⟨b', hb', hname⟩ := List.mem_map.1 hm
        exact hnew b' hb' hname
      · intro b' hb' b''
        rcases List.mem_cons.1 hb' with rfl | hb'
        · exact hfree b''
        · have hl := hnot b' hb' b''
          have hne : (b'.name == b.name) = false := beq_false_of_ne (hnew b' hb')
          simpa [List.lookup_cons, hne] using hl

/-- a scope that has been opened, and the view from it -/
theorem openScope_ok {parent : Option ScopeId} {bindings : List Binding} {s : ScopeId}
    (h : openScope parent bindings d = .ok s d') :
    s = ⟨d.scopes.frames.length⟩ ∧ (bindings.map Binding.name).Nodup ∧
      d' = { d with scopes := ⟨⟨parent, ScopeTable.boundSlots bindings⟩ :: d.scopes.frames⟩ } ∧
      d'.scopes.sees s = (parent.elim Scope.empty d.scopes.sees).extend bindings := by
  simp only [openScope, bind_ok, set_ok, ScopeTable.push] at h
  obtain ⟨d₁, d₂, hg, _, _, rfl, _, d₃, hb, h⟩ := h
  obtain ⟨rfl, rfl⟩ := get_ok.1 hg
  obtain ⟨rfl, rfl⟩ := pure_ok.1 h
  obtain ⟨rfl, hnodup, -⟩ := bindAll_ok _ hb
  have hslots : ScopeTable.boundSlots bindings = (bindings.map fun b => (b.name, Slot.bound b)).reverse ++
      (bindings.map Binding.name).map fun name => (name, Slot.declared) := by
    rw [ScopeTable.boundSlots, List.map_map]
    rfl
  rw [← hslots]
  exact ⟨rfl, hnodup, rfl, ScopeTable.sees_newest hnodup parent _⟩

/-- names that are bound in the global scope before all else -/
theorem bindGlobals_ok {session : Session} {bindings : List Binding}
    (h : bindAll ScopeTable.global bindings ⟨session, .empty, .empty⟩ = .ok () d') :
    d'.scopes.frames.length = 1 ∧ (bindings.map Binding.name).Nodup ∧
      d'.scopes.sees ScopeTable.global = Scope.empty.extend bindings := by
  obtain ⟨rfl, hnodup, -⟩ := bindAll_ok (d := ⟨session, .empty, .empty⟩) (f := ⟨none, []⟩) [] h
  refine ⟨rfl, hnodup, ?_⟩
  funext x
  have hslot := ScopeTable.slot?_newest ⟨none, (bindings.map fun b => (b.name, Slot.bound b)).reverse ++ []⟩ [] x
  rw [ScopeTable.lookup_reverse_bound hnodup] at hslot
  show (match ScopeTable.slot? _ ⟨0⟩ x with
    | some (.bound b) => some b
    | _ => none) = _
  rw [show (0 : Nat) = ([] : List Frame).length from rfl, hslot, Scope.extend]
  cases bindings.find? (fun b => b.name = x) <;> rfl

end Gen

/-! ## What later steps leave as it is -/

/-- a draft has only been added to: scopes have been opened, and bodies registered -/
structure Draft.Extends {ι : Type} (d d' : Draft ι) : Prop where
  frames : ∃ newer, d'.scopes.frames = newer ++ d.scopes.frames
  bodies : d.lambdas.bodies ⊆ d'.lambdas.bodies

namespace Draft.Extends

variable {ι : Type} {d d' d'' : Draft ι} {s : ScopeId}

theorem refl (d : Draft ι) : d.Extends d := ⟨⟨[], rfl⟩, fun _ => id⟩

theorem trans (h : d.Extends d') (h' : d'.Extends d'') : d.Extends d'' := by
  obtain ⟨⟨newer, hf⟩, hb⟩ := h
  obtain ⟨⟨newer', hf'⟩, hb'⟩ := h'
  exact ⟨⟨newer' ++ newer, by rw [hf', hf, List.append_assoc]⟩, fun _ hm => hb' (hb hm)⟩

theorem sees (h : d.Extends d') (hs : s.index < d.scopes.frames.length) :
    d'.scopes.sees s = d.scopes.sees s := by
  obtain ⟨newer, hf⟩ := h.frames
  have := ScopeTable.sees_append newer d.scopes.frames hs
  rwa [← hf] at this

end Draft.Extends

namespace Gen

variable {ι : Type} {d d' : Draft ι}

theorem extends_issued (d : Draft ι) (labels : LabelAllocator) : d.Extends (issued d labels) :=
  ⟨⟨[], rfl⟩, fun _ => id⟩

theorem extends_of_fresh {kind : String} {l : Label} (h : fresh kind d = .ok l d') : d.Extends d' := by
  obtain ⟨labels, rfl⟩ := fresh_ok h
  exact extends_issued d labels

theorem extends_of_openScope {parent : Option ScopeId} {bindings : List Binding} {s : ScopeId}
    (h : openScope parent bindings d = .ok s d') : d.Extends d' := by
  obtain ⟨-, -, rfl, -⟩ := openScope_ok h
  exact ⟨⟨[_], rfl⟩, fun _ => id⟩

theorem extends_of_register {body : LambdaBody ι} (h : register body d = .ok () d') :
    d.Extends d' ∧ body ∈ d'.lambdas.bodies := by
  rw [register_ok h]
  exact ⟨⟨⟨[], rfl⟩, List.subset_append_left _ _⟩, List.mem_append_right _ (List.mem_singleton_self body)⟩

/-! ## Skeletons -/

theorem ifThenElse_ok {cond thenBranch elseBranch : Gen ι (Code ι)} {c : Code ι}
    (h : ifThenElse cond thenBranch elseBranch d = .ok c d') :
    ∃ start thenLabel elseLabel stop d₀ cc d₁ tc d₂ ec labels, d₀ = issued d labels ∧ cond d₀ = .ok cc d₁ ∧
      thenBranch d₁ = .ok tc d₂ ∧ elseBranch d₂ = .ok ec d' ∧
      c = Skeleton.ifThenElse start thenLabel elseLabel stop cc tc ec := by
  simp only [ifThenElse, bind_ok, pure_ok] at h
  obtain ⟨l₁, e₁, h₁, l₂, e₂, h₂, l₃, e₃, h₃, l₄, e₄, h₄, cc, d₁, hc, tc, d₂, ht, ec, d₃, he, rfl, rfl⟩ := h
  obtain ⟨_, rfl⟩ := fresh_ok h₁
  obtain ⟨_, rfl⟩ := fresh_ok h₂
  obtain ⟨_, rfl⟩ := fresh_ok h₃
  obtain ⟨_, rfl⟩ := fresh_ok h₄
  exact ⟨l₁, l₂, l₃, l₄, _, cc, d₁, tc, d₂, ec, _, rfl, hc, ht, he, rfl⟩

theorem whileDo_ok {neutral c : Code ι} {cond body : Gen ι (Code ι)} (h : whileDo neutral cond body d = .ok c d') :
    ∃ start stop d₀ cc d₁ bc labels, d₀ = issued d labels ∧ cond d₀ = .ok cc d₁ ∧ body d₁ = .ok bc d' ∧
      c = Skeleton.whileDo start stop neutral cc bc := by
  simp only [whileDo, bind_ok, pure_ok] at h
  obtain ⟨l₁, e₁, h₁, l₂, e₂, h₂, cc, d₁, hc, bc, d₂, hb, rfl, rfl⟩ := h
  obtain ⟨_, rfl⟩ := fresh_ok h₁
  obtain ⟨_, rfl⟩ := fresh_ok h₂
  exact ⟨l₁, l₂, _, cc, d₁, bc, _, rfl, hc, hb, rfl⟩

theorem doWhile_ok {c : Code ι} {body cond : Gen ι (Code ι)} (h : doWhile body cond d = .ok c d') :
    ∃ start stop d₀ bc d₁ cc labels, d₀ = issued d labels ∧ body d₀ = .ok bc d₁ ∧ cond d₁ = .ok cc d' ∧
      c = Skeleton.doWhile start stop bc cc := by
  simp only [doWhile, bind_ok, pure_ok] at h
  obtain ⟨l₁, e₁, h₁, l₂, e₂, h₂, bc, d₁, hb, cc, d₂, hc, rfl, rfl⟩ := h
  obtain ⟨_, rfl⟩ := fresh_ok h₁
  obtain ⟨_, rfl⟩ := fresh_ok h₂
  exact ⟨l₁, l₂, _, bc, d₁, cc, _, rfl, hb, hc, rfl⟩

theorem countedLoop_ok {neutral c : Code ι} {count body : Gen ι (Code ι)}
    (h : countedLoop neutral count body d = .ok c d') :
    ∃ start stop d₀ cc d₁ bc labels, d₀ = issued d labels ∧ count d₀ = .ok cc d₁ ∧ body d₁ = .ok bc d' ∧
      c = Skeleton.countedLoop start stop neutral cc bc := by
  simp only [countedLoop, bind_ok, pure_ok] at h
  obtain ⟨l₁, e₁, h₁, l₂, e₂, h₂, cc, d₁, hc, bc, d₂, hb, rfl, rfl⟩ := h
  obtain ⟨_, rfl⟩ := fresh_ok h₁
  obtain ⟨_, rfl⟩ := fresh_ok h₂
  exact ⟨l₁, l₂, _, cc, d₁, bc, _, rfl, hc, hb, rfl⟩

end Gen

/-- a compiled expression has been generated, and its labels have been checked -/
theorem generate_of_compile {m : Machine} {e : Expr} {p : Program m.Op} (h : compile m e = .ok p) :
    ∃ d, generate m e ⟨.new, .empty, .empty⟩ = .ok p d ∧ p.checkLabels = .ok () := by
  simp only [compile, bind, Except.bind, pure, Except.pure] at h
  split at h
  · cases h
  · rename_i q hq
    rw [Gen.inSession] at hq
    split at hq
    · rename_i q' d hrun
      cases hq
      split at h
      · cases h
      · rename_i hcheck
        cases h
        exact ⟨d, hrun, hcheck⟩
    · cases hq

theorem exists_of_isOk {m : Machine} {e : Expr} (h : (compile m e).isOk) : ∃ p, compile m e = .ok p := by
  cases hc : compile m e with
  | ok p => exact ⟨p, rfl⟩
  | error _ => rw [hc] at h; cases h

end ThreeMachines
