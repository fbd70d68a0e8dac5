/-
The labels of assembly units.

`Native.Linked u`: the labels of a unit have one place each, are spelled like no symbol from outside and not like the
format, and whatever an instruction names is there. The lowering of an operation names only the label that the operation
names (`Native.Links`), so the unit of a program is linked as soon as the program's own labels are in order
(`linked_unit`).
-/
import ThreeMachines.Compile
import ThreeMachines.Proofs.Labels.Balance

namespace ThreeMachines.Native

/-- what the instruction names is there: a label among `labels`, a function among `imports`, or the format -/
def Instr.Finds (labels : List Label) (imports : List String) : Native.Instr → Prop
  | movConst _ (.addr l) | leaLabel _ l | jmp l | jcc _ l => l ∈ labels
  | callImport symbol => symbol ∈ imports
  | movDatum _ name => name = Snippet.formatLabel
  | _ => True

attribute [simp] Instr.Finds

/-- the label that has its place here -/
def Part.defines : Part → Option Label
  | item (.label l) => some l
  | _ => none

/-- the function that is brought in from outside -/
def Part.imports : Part → Option String
  | imported symbol => some symbol
  | _ => none

/-- every label of the unit has one place, and whatever is named is there -/
structure Linked (u : List Part) : Prop where
  distinct : (u.filterMap Part.defines).Nodup
  main : mainLabel ∈ u.filterMap Part.defines
  format : .format ∈ u ∧ ∀ l ∈ u.filterMap Part.defines, l.text ≠ Snippet.formatLabel
  imports : ∀ l ∈ u.filterMap Part.defines, l.text ∉ u.filterMap Part.imports
  exported : ∀ l, .exported l ∈ u → l ∈ u.filterMap Part.defines
  finds : ∀ i note, .item (.instr i note) ∈ u → i.Finds (u.filterMap Part.defines) (u.filterMap Part.imports)

theorem Instr.Finds.mono {i : Native.Instr} {labels labels' : List Label} {imports : List String} (hl : labels ⊆ labels')
    (h : i.Finds labels imports) : i.Finds labels' imports := by
  cases i with
  | movConst dst value =>
    cases value with
    | int n => trivial
    | addr l => exact hl h
  | leaLabel | jmp | jcc => exact hl h
  | _ => exact h

/-! ## Lowered operations -/

/-- native code without places, whose instructions find what they name -/
def Finds (labels : List Label) (imports : List String) (a : Asm) : Prop :=
  ∀ part ∈ a, ∃ i note, part = .instr i note ∧ i.Finds labels imports

namespace Finds

variable {labels : List Label} {imports : List String} {a b : Asm} {instrs : List Native.Instr}

protected theorem append (ha : Finds labels imports a) (hb : Finds labels imports b) : Finds labels imports (a ++ b) :=
  List.forall_mem_append.2 ⟨ha, hb⟩

theorem instr {i : Native.Instr} {note : Option String} (h : i.Finds labels imports) :
    Finds labels imports [.instr i note] :=
  List.forall_mem_singleton.2 ⟨i, note, rfl, h⟩

protected theorem plain (h : ∀ i ∈ instrs, i.Finds labels imports) : Finds labels imports (plain instrs) := by
  intro part hp
  obtain ⟨i, hi, rfl⟩ := List.mem_map.1 hp
  exact ⟨i, none, rfl, h i hi⟩

end Finds

section
variable {labels : List Label} {imports : List String}

theorem finds_unary (op : UnaryOp) : ∀ i ∈ Snippet.unary op, i.Finds labels imports := by
  cases op <;> simp [Snippet.unary, Snippet.pushCond]

theorem finds_binary (op : BinaryOp) : ∀ i ∈ Snippet.binary op, i.Finds labels imports := by
  cases op <;> simp [Snippet.binary, Snippet.apply, Snippet.apply.logical]

theorem finds_heapAlloc (words : Int) (h : "malloc" ∈ imports) :
    ∀ i ∈ Snippet.heapAlloc words, i.Finds labels imports := by
  simp [Snippet.heapAlloc, h]

theorem finds_fillVector (count : Nat) : ∀ i ∈ Snippet.fillVector count, i.Finds labels imports := by
  induction count with
  | zero => exact fun _ h => absurd h List.not_mem_nil
  | succ count ih => simpa [Snippet.fillVector] using ih

theorem finds_mkvec (n : Int) (h : "malloc" ∈ imports) : ∀ i ∈ Snippet.mkvec n, i.Finds labels imports := by
  have hfill : ∀ i ∈ Snippet.fillVector n.toNat, i.Finds labels imports := finds_fillVector n.toNat
  have halloc : ∀ i ∈ Snippet.heapAlloc (n + 1), i.Finds labels imports := finds_heapAlloc (n + 1) h
  simp only [Snippet.mkvec, List.forall_mem_append]
  simpa using ⟨halloc, hfill⟩

theorem finds_mkfunval {body : Label} (h : "malloc" ∈ imports) (hb : body ∈ labels) :
    ∀ i ∈ Snippet.mkfunval body, i.Finds labels imports := by
  have halloc : ∀ i ∈ Snippet.heapAlloc 2, i.Finds labels imports := finds_heapAlloc 2 h
  simp only [Snippet.mkfunval, List.forall_mem_append]
  simpa [hb] using halloc

theorem finds_copyPair (target : Mem) : ∀ i ∈ Snippet.copyPair target, i.Finds labels imports := by
  simp [Snippet.copyPair]

theorem finds_slide (words : Int) : ∀ i ∈ Snippet.slide words, i.Finds labels imports := by
  rw [Snippet.slide]
  split <;> simp

theorem finds_openFrame : Finds labels imports Snippet.openFrame := by
  refine .append (.plain ?_) (.plain ?_) <;> simp [Snippet.savedRegs]

theorem finds_printAndReturn (h : "printf" ∈ imports) : Finds labels imports Snippet.printAndReturn := by
  refine .append (.append (.plain ?_) (.instr h)) (.plain ?_) <;> simp

theorem finds_closeFrame (h : "printf" ∈ imports) : Finds labels imports Snippet.closeFrame := by
  refine .append (.append (.append (.instr trivial) (.plain ?_)) (.plain ?_)) (finds_printAndReturn h) <;>
    simp [Snippet.savedRegs]

end

/-! ## Programs -/

/-- the native code of a machine: operations find the label that they name, and nothing else is named -/
structure Links (ι : Type) [Lowerable ι] : Prop where
  lower : ∀ op : ι, Finds (Operation.reference op).toList (Lowerable.imports ι) (Lowerable.lower op)
  prologue : ∀ p : Program ι, Finds [] (Lowerable.imports ι) (Lowerable.prologue p)
  epilogue : ∀ p : Program ι, Finds [] (Lowerable.imports ι) (Lowerable.epilogue p)
  /-- no import is spelled like a label -/
  imports : ∀ symbol ∈ Lowerable.imports ι,
    ∃ c, symbol.toList.getLast? = some c ∧ c.isDigit = false ∧ mainLabel.text ≠ symbol

section
variable {ι : Type} [Lowerable ι] {labels : List Label} {imports : List String}

/-- an instruction that is no place of a label finds the label that it names -/
theorem finds_lower (hι : Links ι) {i : ThreeMachines.Instr ι} (hi : i.defines = none) :
    Finds i.references.toList (Lowerable.imports ι) (lower i) := by
  cases i with
  | loadc value =>
    refine .plain ?_
    cases value <;> simp [ThreeMachines.Instr.references]
  | pop | dup | swap | dec => exact .plain (by simp)
  | unary op => exact .plain (finds_unary op)
  | binary op => exact .plain (finds_binary op)
  | label l => cases hi
  | jump target | jumpz target => exact .plain (by simp [ThreeMachines.Instr.references])
  | own op => exact hι.lower op

theorem Finds.defines {a : Asm} (h : Finds labels imports a) : (a.map Part.item).filterMap Part.defines = [] := by
  refine List.filterMap_eq_nil_iff.2 fun part hp => ?_
  obtain ⟨item, hitem, rfl⟩ := List.mem_map.1 hp
  obtain ⟨i, note, rfl, -⟩ := h item hitem
  rfl

theorem defines_instrParts (hι : Links ι) (i : ThreeMachines.Instr ι) :
    (instrParts i).filterMap Part.defines = i.defines.toList := by
  rw [instrParts, List.filterMap_append]
  cases hi : i.defines with
  | none => exact (finds_lower hι hi).defines
  | some l =>
    cases i with
    | label l' => simpa [lower, Snippet.lower, Part.defines, ThreeMachines.Instr.defines] using hi
    | _ => cases hi

theorem defines_code (hι : Links ι) (c : Code ι) :
    (c.flatMap instrParts).filterMap Part.defines = definedIn c := by
  induction c with
  | nil => rfl
  | cons i c ih => rw [List.flatMap_cons, List.filterMap_append, defines_instrParts hι, ih, definedIn_cons]

theorem defines_bodies (hι : Links ι) (bodies : List (LambdaBody ι)) :
    (bodies.flatMap bodyParts).filterMap Part.defines =
      bodies.flatMap fun body => body.label :: definedIn body.code := by
  induction bodies with
  | nil => rfl
  | cons body bodies ih =>
    rw [List.flatMap_cons, List.filterMap_append, ih, bodyParts, List.filterMap_append, defines_code hι,
      List.flatMap_cons]
    rfl

/-- the places of a unit: the definitions of the program, and `main` -/
theorem defines_unit (hι : Links ι) (p : Program ι) :
    ((unit p).filterMap Part.defines).Perm (mainLabel :: p.definitions) := by
  have himports : ((Lowerable.imports ι).map Part.imported).filterMap Part.defines = [] := by simp [Part.defines]
  simp only [unit, List.filterMap_append, himports, defines_bodies hι, (hι.prologue p).defines, defines_code hι,
    (hι.epilogue p).defines]
  have hbodies : (p.lambdas.bodies.flatMap fun body => body.label :: definedIn body.code).Perm
      (definedIn (bodiesCode p.lambdas.bodies) ++ p.lambdas.bodies.map LambdaBody.label) := by
    induction p.lambdas.bodies with
    | nil => rfl
    | cons body bodies ih =>
      rw [List.perm_iff_count] at ih ⊢
      intro l
      have := ih l
      simp only [bodiesCode, List.flatMap_cons, definedIn_append, List.map_cons, List.count_append,
        List.count_cons] at this ⊢
      omega
  rw [definitions_eq_definitionsOf, definitionsOf]
  rw [List.perm_iff_count] at hbodies ⊢
  intro l
  have := hbodies l
  simp only [Part.defines, List.filterMap_cons, List.filterMap_nil, List.count_append, List.count_cons,
    List.count_nil] at this ⊢
  omega

theorem imports_instrParts (i : ThreeMachines.Instr ι) : (instrParts i).filterMap Part.imports = [] := by
  refine List.filterMap_eq_nil_iff.2 fun part hp => ?_
  rcases List.mem_append.1 hp with hp | hp
  · split at hp
    · rw [List.mem_singleton.1 hp]
      rfl
    · exact absurd hp List.not_mem_nil
  · obtain ⟨item, -, rfl⟩ := List.mem_map.1 hp
    rfl

theorem imports_code (c : Code ι) : (c.flatMap instrParts).filterMap Part.imports = [] := by
  rw [List.filterMap_flatMap, List.flatMap_eq_nil_iff]
  exact fun i _ => imports_instrParts i

theorem imports_items (a : Asm) : (a.map Part.item).filterMap Part.imports = [] := by
  rw [List.filterMap_map, List.filterMap_eq_nil_iff]
  exact fun _ _ => rfl

theorem imports_unit (p : Program ι) : (unit p).filterMap Part.imports = Lowerable.imports ι := by
  have hbodies : (p.lambdas.bodies.flatMap bodyParts).filterMap Part.imports = [] := by
    rw [List.filterMap_flatMap, List.flatMap_eq_nil_iff]
    intro body _
    rw [bodyParts, List.filterMap_append, imports_code]
    rfl
  have himports : ((Lowerable.imports ι).map Part.imported).filterMap Part.imports = Lowerable.imports ι := by
    simp [List.filterMap_map, Function.comp_def, Part.imports]
  simp only [unit, List.filterMap_append, himports, hbodies, imports_items, imports_code]
  simp [Part.imports]

/-- an instruction of the unit comes from an instruction of the program, or names no label -/
theorem finds_of_mem_unit (hι : Links ι) {p : Program ι} {i : Native.Instr} {note : Option String}
    (h : .item (.instr i note) ∈ unit p) : i.Finds (namedIn p.instructions) (Lowerable.imports ι) := by
  have hitems {a : Asm} (ha : Finds [] (Lowerable.imports ι) a) (h : .item (.instr i note) ∈ a.map Part.item) :
      i.Finds (namedIn p.instructions) (Lowerable.imports ι) := by
    obtain ⟨item, hitem, hi⟩ := List.mem_map.1 h
    obtain ⟨i', note', rfl, hfinds⟩ := ha item hitem
    cases hi
    exact hfinds.mono (List.nil_subset _)
  have hcode {c : Code ι} (hc : c ⊆ p.instructions) (h : .item (.instr i note) ∈ c.flatMap instrParts) :
      i.Finds (namedIn p.instructions) (Lowerable.imports ι) := by
    obtain ⟨i', hi', h⟩ := List.mem_flatMap.1 h
    have hitem : Item.instr i note ∈ lower i' := by
      simp only [instrParts, List.mem_append, List.mem_map, Part.item.injEq, exists_eq_right] at h
      refine h.resolve_left fun h => ?_
      split at h <;> simp at h
    have hdefines : i'.defines = none := by
      cases i' with
      | label l => simp [lower, Snippet.lower] at hitem
      | _ => rfl
    obtain ⟨_, _, hi, hfinds⟩ := finds_lower hι hdefines _ hitem
    cases hi
    refine hfinds.mono fun l hl => List.mem_filterMap.2 ⟨i', hc hi', by simpa using hl⟩
  simp only [unit, List.mem_append] at h
  rcases h with (((((h | h) | h) | h) | h) | h) | h
  · simp at h
  · simp at h
  · obtain ⟨body, hbody, h⟩ := List.mem_flatMap.1 h
    rw [bodyParts, List.mem_append] at h
    refine hcode ?_ (h.resolve_left (by simp))
    exact fun i hi => List.mem_append_right _ (List.mem_flatMap.2 ⟨body, hbody, hi⟩)
  · simp at h
  · exact hitems (hι.prologue p) h
  · exact hcode (List.subset_append_left _ _) h
  · exact hitems (hι.epilogue p) h

theorem exported_of_mem_unit {p : Program ι} {l : Label} (h : .exported l ∈ unit p) :
    l = mainLabel ∨ l ∈ p.lambdas.bodies.map LambdaBody.label := by
  have hitems (a : Asm) : Part.exported l ∉ a.map Part.item := by simp
  have hcode (c : Code ι) : Part.exported l ∉ c.flatMap instrParts := by
    intro h
    obtain ⟨i, -, h⟩ := List.mem_flatMap.1 h
    rw [instrParts, List.mem_append] at h
    refine absurd (h.resolve_left fun h => ?_) (hitems _)
    split at h <;> simp at h
  simp only [unit, List.mem_append] at h
  rcases h with (((((h | h) | h) | h) | h) | h) | h
  · simp at h
  · simp at h
  · obtain ⟨body, hbody, h⟩ := List.mem_flatMap.1 h
    rw [bodyParts, List.mem_append] at h
    have hl : l = body.label := by simpa using h.resolve_right (hcode body.code)
    exact .inr (List.mem_map.2 ⟨body, hbody, hl.symm⟩)
  · exact .inl (by simpa using h)
  · exact absurd h (hitems _)
  · exact absurd h (hcode _)
  · exact absurd h (hitems _)

/-- **Assembly.** If the labels of a program are in order, so are those of its unit. -/
theorem linked_unit (hι : Links ι) {p : Program ι} (hdistinct : p.definitions.Nodup)
    (hspelled : ∀ l ∈ p.definitions, ∃ kind n, l = .numbered kind n)
    (hnamed : ∀ l ∈ namedIn p.instructions, l ∈ p.definitions) : Linked (unit p) := by
  have hplaces := defines_unit hι p
  have hmem {l : Label} : l ∈ (unit p).filterMap Part.defines ↔ l = mainLabel ∨ l ∈ p.definitions := by
    rw [hplaces.mem_iff, List.mem_cons]
  -- neither `main` nor a symbol from outside ends in a digit
  have hother {text : String} {c : Char} (hlast : text.toList.getLast? = some c) (hc : c.isDigit = false) :
      ⟨text⟩ ∉ p.definitions := by
    intro hl
    obtain ⟨kind, n, hl⟩ := hspelled _ hl
    exact Label.numbered_ne hlast hc hl.symm
  refine ⟨?_, hmem.2 (.inl rfl), ⟨?_, ?_⟩, ?_, ?_, ?_⟩
  · exact hplaces.nodup_iff.2 (List.nodup_cons.2 ⟨hother (c := 'n') (by decide) (by decide), hdistinct⟩)
  · simp [unit]
  · intro l hl htext
    rcases hmem.1 hl with rfl | hl
    · revert htext
      decide
    · obtain rfl : l = ⟨Snippet.formatLabel⟩ := congrArg Label.mk htext
      exact hother (c := 't') (by decide) (by decide) hl
  · intro l hl himport
    rw [imports_unit] at himport
    obtain ⟨c, hlast, hc, hmain⟩ := hι.imports _ himport
    rcases hmem.1 hl with rfl | hl
    · exact hmain rfl
    · exact hother hlast hc hl
  · intro l hl
    rcases exported_of_mem_unit hl with rfl | hl
    · exact hmem.2 (.inl rfl)
    · exact hmem.2 (.inr (List.mem_append_right _ hl))
  · intro i note hi
    rw [imports_unit]
    exact (finds_of_mem_unit hι hi).mono fun l hl => hmem.2 (.inr (hnamed l hl))

end

end ThreeMachines.Native
