/-
Histories of a scope table and the allocator of its globals.

A history is a list of requests, each of which changes table and allocator in place (`Scopes.perform`): a failure keeps
what was changed before it, and the target of an assignment takes its word before its address is fixed. A request may
name the global scope and the scopes that requests before it have opened (`Scopes.inOrder`).

`perform_cases` says all that a request can do; it keeps the scopes, their parents and their bindings, and a failed one
leaves everything as it was (`Good.perform`). So it is with whole histories (`Good.history`), and `histories_lawful`
puts together what holds of every table that a history makes.
-/
import ThreeMachines.Proofs.Scopes.Changes

namespace ThreeMachines

/-- a scope table and the allocator of its globals -/
structure Scopes where
  table : ScopeTable
  globals : GlobalAllocator
deriving Repr

namespace Scopes

/-- before the first request -/
def new : Scopes := ⟨.empty, .empty⟩

/-- changes table and allocator in place; a failure keeps what was changed before it -/
abbrev Action := EStateM CompileError Scopes

def declare (parent : ScopeId) (names : List String) : Action ScopeId := do
  let s ← get
  let (scope, table) := s.table.declare parent names
  set { s with table }
  return scope

def detached (names : List String) : Action ScopeId := do
  let s ← get
  let (scope, table) := s.table.detached names
  set { s with table }
  return scope

def bind (scope : ScopeId) (b : Binding) : Action Unit := do
  let s ← get
  match s.table.bind scope b with
  | .ok table => set { s with table }
  | .error e => throw e

/-- the address of the next free word -/
def takeWord : Action Int := do
  let s ← get
  let (address, globals) := s.globals.allocate wordSize
  set { s with globals }
  return address

/-- what an assignment target stands for, one step after the other -/
def resolveOrAllocate (scope : ScopeId) (name : String) : Action Binding := do
  let s ← get
  if s.table.isVisible scope name then
    match s.table.lookup scope name with
    | .ok b => return b
    | .error e => throw e
  else
    let address ← takeWord
    bind (s.table.root scope) ⟨name, .global, address⟩
    return ⟨name, .global, address⟩

inductive Request where
  | declare (parent : ScopeId) (names : List String)
  | detached (names : List String)
  | bind (scope : ScopeId) (binding : Binding)
  | assign (scope : ScopeId) (name : String)
deriving Repr

/-- the scopes that a request names -/
def Request.scopes : Request → List ScopeId
  | declare scope _ | bind scope _ | assign scope _ => [scope]
  | detached _ => []

inductive Answer where
  | opened (scope : ScopeId)
  | fixed
  | target (binding : Binding)
deriving Repr

def perform : Request → Action Answer
  | .declare parent names => return .opened (← declare parent names)
  | .detached names => return .opened (← detached names)
  | .bind scope b => do
    bind scope b
    return .fixed
  | .assign scope name => return .target (← resolveOrAllocate scope name)

/-- a request of a history, and what came of it -/
structure Event where
  before : Scopes
  request : Request
  outcome : EStateM.Result CompileError Scopes Answer

namespace Event

def after (e : Event) : Scopes :=
  match e.outcome with
  | .ok _ s | .error _ s => s

/-- the scope that the request has opened -/
def opened (e : Event) : List ScopeId :=
  match e.outcome with
  | .ok (.opened scope) _ => [scope]
  | _ => []

/-- the address that the request has taken for a name which was not visible -/
def allocated (e : Event) : List Int :=
  match e.request, e.outcome with
  | .assign scope name, .ok (.target b) _ => if e.before.table.isVisible scope name then [] else [b.address]
  | _, _ => []

end Event

/-- one request -/
def event (s : Scopes) (r : Request) : Event := ⟨s, r, perform r s⟩

/-- requests one after the other -/
def history (s : Scopes) : List Request → List Event
  | [] => []
  | r :: rest => event s r :: history (event s r).after rest

/-- table and allocator after requests -/
def after (s : Scopes) : List Request → Scopes
  | [] => s
  | r :: rest => after (event s r).after rest

/-- the scopes that can be named after requests -/
def known (rs : List Request) : List ScopeId := ScopeTable.global :: (history new rs).flatMap Event.opened

/-- each request names scopes that are known, or that requests before it have opened -/
def inOrder (known : List ScopeId) (s : Scopes) : List Request → Bool
  | [] => true
  | r :: rest => r.scopes.all (fun i => known.contains i) && inOrder (known ++ (event s r).opened) (event s r).after rest

section
variable {s s' : Scopes} {r : Request} {rs more : List Request} {scope : ScopeId} {name : String}

theorem after_append : after s (rs ++ more) = after (after s rs) more := by
  induction rs generalizing s with
  | nil => rfl
  | cons r rs ih => rw [List.cons_append, after, ih, after]

/-! ## One request -/

theorem bind_apply (b : Binding) : bind scope b s = match s.table.bind scope b with
    | .ok table => .ok () { s with table }
    | .error e => .error e s := by
  show (match s.table.bind scope b with
    | .ok table => (set { s with table } : Action PUnit)
    | .error e => throw e) s = _
  cases s.table.bind scope b <;> rfl

/-- a visible name is looked up, and nothing changes -/
theorem resolveOrAllocate_visible (h : s.table.isVisible scope name = true) :
    resolveOrAllocate scope name s = match s.table.lookup scope name with
      | .ok b => .ok b s
      | .error e => .error e s := by
  show (if s.table.isVisible scope name then _ else _ : Action Binding) s = _
  rw [if_pos h]
  cases s.table.lookup scope name <;> rfl

/-- an invisible name gets the next word; the word is taken even if its address cannot be fixed -/
theorem resolveOrAllocate_invisible (h : s.table.isVisible scope name = false) :
    resolveOrAllocate scope name s =
      match s.table.bind (s.table.root scope) ⟨name, .global, s.globals.next⟩ with
      | .ok table => .ok ⟨name, .global, s.globals.next⟩ ⟨table, ⟨s.globals.next + wordSize⟩⟩
      | .error e => .error e ⟨s.table, ⟨s.globals.next + wordSize⟩⟩ := by
  show (if s.table.isVisible scope name then _ else _ : Action Binding) s = _
  rw [if_neg (by simp [h])]
  show EStateM.bind (bind (s.table.root scope) ⟨name, .global, s.globals.next⟩) _
    ⟨s.table, ⟨s.globals.next + wordSize⟩⟩ = _
  rw [EStateM.bind, bind_apply]
  simp only
  cases s.table.bind (s.table.root scope) ⟨name, .global, s.globals.next⟩ <;> rfl

/-- what a request does, and when -/
inductive Effect (s : Scopes) : Request → EStateM.Result CompileError Scopes Answer → Prop where
  | failed {r : Request} (e : CompileError) : Effect s r (.error e s)
  | opened {r : Request} (parent : Option ScopeId) (names : List String) (hparent : ∀ p, parent = some p → p ∈ r.scopes) :
    Effect s r (.ok (.opened (s.table.push parent names).1) { s with table := (s.table.push parent names).2 })
  | fixed {scope : ScopeId} {b : Binding} {table : ScopeTable} (hbind : s.table.bind scope b = .ok table) :
    Effect s (.bind scope b) (.ok .fixed { s with table })
  | found {scope : ScopeId} {name : String} {b : Binding} (hvisible : s.table.isVisible scope name = true)
    (hlookup : s.table.lookup scope name = .ok b) : Effect s (.assign scope name) (.ok (.target b) s)
  | allocated {scope : ScopeId} {name : String} {table : ScopeTable} (hinvisible : s.table.isVisible scope name = false)
    (hbind : s.table.bind (s.table.root scope) ⟨name, .global, s.globals.next⟩ = .ok table) :
    Effect s (.assign scope name)
      (.ok (.target ⟨name, .global, s.globals.next⟩) ⟨table, ⟨s.globals.next + wordSize⟩⟩)

/-- the table is in order, and the scopes that can be named are its own -/
structure Good (s : Scopes) (known : List ScopeId) : Prop where
  grown : s.table.Grown
  inside : ∀ i ∈ known, i.index < s.table.frames.length

/-- the root of a scope is a scope of the table, and has no name that is not visible -/
theorem Good.root {known : List ScopeId} (h : Good s known) (hscope : scope ∈ known) (name : String) :
    (s.table.root scope).index < s.table.frames.length ∧
      (s.table.isVisible scope name = false → s.table.held? (s.table.root scope) name = none) := by
  obtain ⟨path, hpath, -⟩ := ScopeTable.exists_outward h.grown (h.inside scope hscope)
  have hroot : s.table.root scope ∈ path := List.mem_of_getLast? (ScopeTable.getLast?_of_outward h.grown hpath)
  refine ⟨hpath.index_lt _ hroot, fun hinvisible => ?_⟩
  rw [ScopeTable.isVisible, Option.isSome_eq_false_iff, Option.isNone_iff_eq_none,
    ScopeTable.slot?_eq_none_iff h.grown hpath] at hinvisible
  exact hinvisible _ hroot

/-- **Requests.** There is nothing else that a request does. -/
theorem Good.effect {known : List ScopeId} (h : Good s known) (hr : ∀ i ∈ r.scopes, i ∈ known) :
    Effect s r (perform r s) := by
  cases r with
  | declare parent names =>
    refine .opened (some parent) names ?_
    rintro _ ⟨⟩
    exact List.mem_singleton_self parent
  | detached names => exact .opened none names nofun
  | bind scope b =>
    show Effect s _ (EStateM.bind (bind scope b) _ s)
    rw [EStateM.bind, bind_apply]
    cases hbind : s.table.bind scope b with
    | ok table => exact .fixed hbind
    | error e => exact .failed e
  | assign scope name =>
    show Effect s _ (EStateM.bind (resolveOrAllocate scope name) _ s)
    rw [EStateM.bind]
    cases hvisible : s.table.isVisible scope name with
    | true =>
      rw [resolveOrAllocate_visible hvisible]
      cases hlookup : s.table.lookup scope name with
      | ok b => exact .found hvisible hlookup
      | error e => exact .failed e
    | false =>
      -- the root has no such name, so its address can be fixed once the word is taken
      obtain ⟨hroot, hfree⟩ := h.root (hr scope (List.mem_singleton_self scope)) name
      obtain ⟨table, hbind⟩ := ScopeTable.exists_bind ⟨name, .global, s.globals.next⟩ hroot
        fun b' => by simp [hfree hvisible]
      rw [resolveOrAllocate_invisible hvisible, hbind]
      exact .allocated hvisible hbind

/-- nothing that was there is gone, and the addresses follow each other between the words that were free before and those
that are free after -/
structure Grows (s s' : Scopes) (addresses : List Int) : Prop where
  keeps : s.table.Keeps s'.table
  next : s.globals.next ≤ s'.globals.next
  between : ∀ a ∈ addresses, s.globals.next ≤ a ∧ a + wordSize ≤ s'.globals.next
  apart : addresses.Pairwise fun a b => a + wordSize ≤ b

theorem Grows.refl (s : Scopes) : Grows s s [] := ⟨.refl _, le_rfl, nofun, .nil⟩

theorem Grows.trans {s'' : Scopes} {as bs : List Int} (h : Grows s s' as) (h' : Grows s' s'' bs) :
    Grows s s'' (as ++ bs) where
  keeps := h.keeps.trans h'.keeps
  next := h.next.trans h'.next
  between := List.forall_mem_append.2 ⟨fun a ha => ⟨(h.between a ha).1, (h.between a ha).2.trans h'.next⟩,
    fun b hb => ⟨h.next.trans (h'.between b hb).1, (h'.between b hb).2⟩⟩
  apart := List.pairwise_append.2 ⟨h.apart, h'.apart, fun a ha b hb => (h.between a ha).2.trans (h'.between b hb).1⟩

/-- a table that keeps the scopes of another one is as good -/
theorem Good.keeps {known : List ScopeId} (h : Good s known) (hk : s.table.Keeps s'.table) (hg : s'.table.Grown)
    {opened : List ScopeId} (hopened : ∀ i ∈ opened, i.index < s'.table.frames.length) : Good s' (known ++ opened) :=
  ⟨hg, List.forall_mem_append.2 ⟨fun i hi => (h.inside i hi).trans_le hk.length, hopened⟩⟩

/-- **One request.** The table stays good, and it grows. -/
theorem Good.event {known : List ScopeId} (h : Good s known) (hr : ∀ i ∈ r.scopes, i ∈ known) :
    Good (event s r).after (known ++ (event s r).opened) ∧ Grows s (event s r).after (event s r).allocated := by
  have heffect := h.effect hr
  rw [Scopes.event]
  generalize perform r s = outcome at heffect
  cases heffect with
  | failed e =>
    have hnone : (Event.mk s r (.error e s)).allocated = [] := by cases r <;> rfl
    rw [hnone]
    exact ⟨h.keeps (.refl _) h.grown nofun, .refl s⟩
  | opened parent names hparent =>
    have hnone : (Event.mk s r (.ok (.opened (s.table.push parent names).1)
        { s with table := (s.table.push parent names).2 })).allocated = [] := by cases r <;> rfl
    rw [hnone]
    have hgrown := h.grown.push names fun p hp => h.inside p (hr p (hparent p hp))
    refine ⟨h.keeps ScopeTable.keeps_push hgrown (List.forall_mem_singleton.2 ?_),
      ⟨ScopeTable.keeps_push, le_rfl, nofun, .nil⟩⟩
    exact ScopeTable.index_lt_of_frame? ScopeTable.frame?_push_new
  | fixed hbind =>
    have hscope := h.inside _ (hr _ (List.mem_singleton_self _))
    have hkeeps := ScopeTable.keeps_bind hscope hbind
    exact ⟨h.keeps hkeeps (h.grown.bind hscope hbind) nofun, ⟨hkeeps, le_rfl, nofun, .nil⟩⟩
  | found hvisible hlookup =>
    have hnone : ∀ {scope name b}, s.table.isVisible scope name = true →
        (Event.mk s (.assign scope name) (.ok (.target b) s)).allocated = [] := fun hv => if_pos hv
    rw [hnone hvisible]
    exact ⟨h.keeps (.refl _) h.grown nofun, .refl s⟩
  | @allocated scope name table hinvisible hbind =>
    have hone : (Event.mk s (.assign scope name) (.ok (.target ⟨name, .global, s.globals.next⟩)
        ⟨table, ⟨s.globals.next + wordSize⟩⟩)).allocated = [s.globals.next] := if_neg (by simp [hinvisible])
    rw [hone]
    have hroot := (h.root (hr scope (List.mem_singleton_self scope)) name).1
    have hkeeps := ScopeTable.keeps_bind hroot hbind
    refine ⟨h.keeps hkeeps (h.grown.bind hroot hbind) nofun, ⟨hkeeps, ?_, by simp [Event.after], List.pairwise_singleton _ _⟩⟩
    simp [Event.after, wordSize]

/-- **Histories.** What one request keeps, all of them keep. -/
theorem Good.history {known : List ScopeId} (h : Good s known) (hrs : inOrder known s rs) :
    Good (after s rs) (known ++ (history s rs).flatMap Event.opened) ∧
      Grows s (after s rs) ((history s rs).flatMap Event.allocated) := by
  induction rs generalizing s known with
  | nil => exact ⟨by simpa [Scopes.history, after] using h, .refl s⟩
  | cons r rs ih =>
    simp only [inOrder, Bool.and_eq_true, List.all_eq_true, List.contains_iff_mem] at hrs
    obtain ⟨hgood, hgrows⟩ := h.event hrs.1
    obtain ⟨hgood', hgrows'⟩ := ih hgood hrs.2
    rw [List.append_assoc] at hgood'
    exact ⟨hgood', hgrows.trans hgrows'⟩

theorem good_new : Good new [ScopeTable.global] := by
  refine ⟨⟨Nat.one_pos, ?_⟩, by simp [new, ScopeTable.empty, ScopeTable.global]⟩
  intro s frame parent hframe hparent
  obtain rfl : s = ⟨0⟩ := congrArg ScopeId.mk (Nat.lt_one_iff.1 (ScopeTable.index_lt_of_frame? hframe))
  cases hframe
  cases hparent

end

/-! ## What holds of every table -/

/-- what holds after requests, and of those that follow -/
structure Lawful (rs : List Request) : Prop where
  /-- from each scope a way leads by the parents to its root and meets no scope twice, and a name stands for what the
  nearest frame on the way says -/
  chains : ∀ i ∈ known rs, ∃ path, (after new rs).table.Outward i path ∧ path.Nodup ∧
    path.getLast? = some ((after new rs).table.root i) ∧ ∀ name,
      (∀ b, (after new rs).table.lookup i name = .ok b ↔ (after new rs).table.Nearest path name (.bound b)) ∧
      ((after new rs).table.lookup i name = .error (.internal (.readBeforeFixed name)) ↔
        (after new rs).table.Nearest path name .declared) ∧
      ((after new rs).table.lookup i name = .error (.undefinedVariable name) ↔
        (after new rs).table.isVisible i name = false) ∧
      ((after new rs).table.isVisible i name = false ↔ ∀ j ∈ path, (after new rs).table.held? j name = none)
  /-- what is bound stays bound -/
  permanent : ∀ more, inOrder (known rs) (after new rs) more → ∀ i name b,
    (after new rs).table.held? i name = some (.bound b) →
      (after new (rs ++ more)).table.held? i name = some (.bound b)
  /-- an invisible target takes one word and becomes a global of the root; nothing else changes -/
  fresh : ∀ i ∈ known rs, ∀ name, (after new rs).table.isVisible i name = false →
    let b : Binding := ⟨name, .global, (after new rs).globals.next⟩
    ∃ s, resolveOrAllocate i name (after new rs) = .ok b s ∧ s.globals.next = (after new rs).globals.next + wordSize ∧
      s.table.lookup i name = .ok b ∧ ∀ j x, s.table.held? j x =
        if j = (after new rs).table.root i ∧ x = name then some (.bound b) else (after new rs).table.held? j x
  /-- no two words that were taken overlap, and those that are still free come after them -/
  apart : ((history new rs).flatMap Event.allocated).Pairwise (fun a b => a + wordSize ≤ b) ∧
    ∀ a ∈ (history new rs).flatMap Event.allocated, a + wordSize ≤ (after new rs).globals.next
  /-- a request that fails leaves table and allocator as they were -/
  unchanged : ∀ r : Request, (∀ i ∈ r.scopes, i ∈ known rs) → ∀ e s, perform r (after new rs) = .error e s → s = after new rs
  /-- one step after the other is the same as at once -/
  atOnce : ∀ i ∈ known rs, ∀ name, resolveOrAllocate i name (after new rs) =
    match (after new rs).table.resolveOrAllocate i name (after new rs).globals with
    | .ok (b, table, globals) => .ok b ⟨table, globals⟩
    | .error e => .error e (after new rs)

section
variable {s : Scopes} {known : List ScopeId} {scope : ScopeId} {name : String} {path : List ScopeId}

/-- what a lookup answers, by the way outward -/
theorem lookup_iff {t : ScopeTable} (ht : t.Grown) (hpath : t.Outward scope path) (name : String) :
    (∀ b, t.lookup scope name = .ok b ↔ t.Nearest path name (.bound b)) ∧
      (t.lookup scope name = .error (.internal (.readBeforeFixed name)) ↔ t.Nearest path name .declared) ∧
      (t.lookup scope name = .error (.undefinedVariable name) ↔ t.isVisible scope name = false) ∧
      (t.isVisible scope name = false ↔ ∀ j ∈ path, t.held? j name = none) := by
  simp only [← ScopeTable.slot?_eq_some_iff ht hpath, ← ScopeTable.slot?_eq_none_iff ht hpath, ScopeTable.lookup,
    ScopeTable.isVisible]
  cases t.slot? scope name with
  | none => simp
  | some slot => cases slot <;> simp

/-- an invisible target becomes a global of the root, and then stands for it -/
theorem Good.resolveOrAllocate (h : Good s known) (hscope : scope ∈ known)
    (hinvisible : s.table.isVisible scope name = false) :
    ∃ table, s.table.bind (s.table.root scope) ⟨name, .global, s.globals.next⟩ = .ok table ∧
      Scopes.resolveOrAllocate scope name s = .ok ⟨name, .global, s.globals.next⟩ ⟨table, ⟨s.globals.next + wordSize⟩⟩ ∧
      table.lookup scope name = .ok ⟨name, .global, s.globals.next⟩ := by
  obtain ⟨hroot, hfree⟩ := h.root hscope name
  obtain ⟨table, hbind⟩ := ScopeTable.exists_bind ⟨name, .global, s.globals.next⟩ hroot
    fun b' => by simp [hfree hinvisible]
  refine ⟨table, hbind, by rw [resolveOrAllocate_invisible hinvisible, hbind], ?_⟩
  obtain ⟨path, hpath, hordered, -⟩ := ScopeTable.exists_outward h.grown (h.inside scope hscope)
  have hnone := (lookup_iff h.grown hpath name).2.2.2.1 hinvisible
  have hpath' := (ScopeTable.keeps_bind hroot hbind).outward hpath
  have hheld := ScopeTable.held?_bind hroot hbind
  -- the way ends at the root, and no frame before it has the name
  obtain ⟨inner, hinner⟩ := List.getLast?_eq_some_iff.1 (ScopeTable.getLast?_of_outward h.grown hpath)
  refine ((lookup_iff (h.grown.bind hroot hbind) hpath' name).1 _).2 ⟨inner, _, [], hinner, fun i hi => ?_, ?_⟩
  · rw [hinner, List.pairwise_append] at hordered
    have hne : i ≠ s.table.root scope := by
      rintro rfl
      exact lt_irrefl _ (hordered.2.2 _ hi _ (List.mem_singleton_self _))
    rw [hheld, if_neg fun hi => hne hi.1]
    exact hnone i (hinner ▸ List.mem_append_left _ hi)
  · rw [hheld, if_pos ⟨rfl, rfl⟩]

/-- the steps one after the other come to what the scope table answers at once -/
theorem Good.atOnce (h : Good s known) (hscope : scope ∈ known) : Scopes.resolveOrAllocate scope name s =
    match s.table.resolveOrAllocate scope name s.globals with
    | .ok (b, table, globals) => .ok b ⟨table, globals⟩
    | .error e => .error e s := by
  rw [ScopeTable.resolveOrAllocate]
  cases hvisible : s.table.isVisible scope name with
  | true =>
    rw [resolveOrAllocate_visible hvisible, if_pos rfl]
    cases s.table.lookup scope name <;> rfl
  | false =>
    obtain ⟨table, hbind, hresolve, -⟩ := h.resolveOrAllocate hscope hvisible
    rw [hresolve, if_neg (by simp)]
    simp only [GlobalAllocator.allocate, hbind]
    rfl

end

/-- **Histories of a scope table.** Whatever is requested, of scopes that have been opened before, what holds of a table is
`Lawful`. -/
theorem histories_lawful {rs : List Request} (hrs : inOrder [ScopeTable.global] new rs) : Lawful rs := by
  obtain ⟨hgood, hgrows⟩ := good_new.history hrs
  refine ⟨fun i hi => ?_, fun more hmore i name b hb => ?_, fun i hi name hinvisible => ?_, ⟨hgrows.apart, ?_⟩,
    fun r hr e s he => ?_, fun i hi name => hgood.atOnce hi⟩
  · obtain ⟨path, hpath, hordered, -⟩ := ScopeTable.exists_outward hgood.grown (hgood.inside i hi)
    refine ⟨path, hpath, hordered.imp fun hlt => ?_, ScopeTable.getLast?_of_outward hgood.grown hpath,
      lookup_iff hgood.grown hpath⟩
    rintro rfl
    exact lt_irrefl _ hlt
  · rw [after_append]
    exact (hgood.history hmore).2.keeps.bound hb
  · obtain ⟨table, hbind, hresolve, hlookup⟩ := hgood.resolveOrAllocate hi hinvisible
    exact ⟨_, hresolve, rfl, hlookup, ScopeTable.held?_bind (hgood.root hi name).1 hbind⟩
  · exact fun a ha => (hgrows.between a ha).2
  · have heffect := hgood.effect hr
    rw [he] at heffect
    cases heffect
    rfl

/-- a block around an assignment to its own variable and to another one, a scope that sees no other, and a second address
for one name -/
def shadowing : List Request :=
  [.declare ⟨0⟩ ["a"], .assign ⟨1⟩ "a", .assign ⟨1⟩ "x", .bind ⟨1⟩ ⟨"a", .blockLocal, 8⟩, .detached ["p"],
    .declare ⟨2⟩ ["x"], .assign ⟨3⟩ "y", .bind ⟨1⟩ ⟨"a", .blockLocal, 16⟩]

theorem histories_shadowing : inOrder [ScopeTable.global] new shadowing ∧
    (history new shadowing).flatMap Event.allocated = [0, 8] ∧ Lawful shadowing :=
  ⟨by decide, by decide, histories_lawful (by decide)⟩

end Scopes
end ThreeMachines
