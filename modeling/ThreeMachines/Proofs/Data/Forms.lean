/-
The form of a JSON value that stands for an expression.

A `Shape` says what a value stands for, and with that which fields an object has (`Shape.fields?`) and what the items of
a list are (`Shape.item?`). Three things are said along the shapes, without the decoder:
- `Json.proper`: every expression and every binding is an object in which no key is repeated;
- `Json.tidy`: unknown fields are dropped and a missing `else_branch` is written as `null`; what else becomes of the
  parts that hold no expression is a parameter;
- `Json.Same`: two values differ in the order of keys at most.

`Json.same_tidy` is what the decoder's cases need: fields that are listed in the order of the shape (`Arranged`) are the
tidy fields up to order.
-/
import ThreeMachines.Proofs.Placement
import ThreeMachines.Syntax.Data

namespace ThreeMachines

/-- what a value stands for -/
inductive Shape where
  /-- a number, a truth value, a name or names -/
  | data
  | operator
  | kind
  | expr
  /-- an expression, or none -/
  | optional
  | exprs
  | binding
  | bindings
deriving DecidableEq, Repr

namespace Json

/-- operators and kinds spelled by their names -/
def spelled : Shape → Json → Json
  | .operator, .obj [(name, .null)] => .str name
  | .operator, .obj [(name, .obj [])] => .str name
  | .kind, .number (.ofNat index) 0 =>
    match Expr.kinds[index]? with
    | some kind => .str kind
    | none => .number index 0
  | _, value => value

/-- the kind that the fields of an expression name -/
def kindOf (fields : List (String × Json)) : String :=
  match (fields.lookup "kind").map (spelled .kind) with
  | some (.str kind) => kind
  | _ => ""

end Json

namespace Shape

/-- the fields of an expression of a kind -/
def fieldsOf : String → List (String × Shape)
  | "number" => [("kind", kind), ("value", data)]
  | "bool" => [("kind", kind), ("value", data)]
  | "var" => [("kind", kind), ("name", data)]
  | "unary" => [("kind", kind), ("op", operator), ("operand", expr)]
  | "binary" => [("kind", kind), ("op", operator), ("lhs", expr), ("rhs", expr)]
  | "assign" => [("kind", kind), ("name", data), ("value", expr)]
  | "seq" => [("kind", kind), ("items", exprs)]
  | "if" => [("kind", kind), ("cond", expr), ("then_branch", expr), ("else_branch", optional)]
  | "while" => [("kind", kind), ("cond", expr), ("body", expr)]
  | "do_while" => [("kind", kind), ("body", expr), ("cond", expr)]
  | "loop" => [("kind", kind), ("count", expr), ("body", expr)]
  | "local" => [("kind", kind), ("bindings", bindings), ("body", expr)]
  | "lambda" => [("kind", kind), ("params", data), ("body", expr)]
  | "proc" => [("kind", kind), ("params", data), ("locals", data), ("body", expr)]
  | "call" => [("kind", kind), ("callee", expr), ("args", exprs)]
  | _ => []

/-- the fields of an object of the shape -/
def fields? (fields : List (String × Json)) : Shape → Option (List (String × Shape))
  | expr | optional => some (fieldsOf (Json.kindOf fields))
  | binding => some [("name", data), ("value", expr)]
  | data | operator | kind | exprs | bindings => none

/-- what the items of a list of the shape are -/
def item? : Shape → Option Shape
  | exprs => some expr
  | bindings => some binding
  | data | operator | kind | expr | optional | binding => none

/-- no key names two fields -/
theorem nodup_fieldsOf (kind : String) : ((fieldsOf kind).map Prod.fst).Nodup := by
  unfold fieldsOf
  split <;> decide

end Shape

namespace Json

/-! ## Objects for expressions and bindings -/

mutual

/-- every expression and every binding is an object without repeated keys -/
def proper (shape : Shape) : Json → Bool
  | .obj fields =>
    match shape.fields? fields with
    | some known => decide (fields.map Prod.fst).Nodup && properFields known fields
    | none => true
  | .arr items =>
    match shape.item? with
    | some item => properItems item items
    | none => (shape.fields? []).isNone
  | _ => true

def properItems (shape : Shape) : List Json → Bool
  | [] => true
  | value :: rest => proper shape value && properItems shape rest

def properFields (known : List (String × Shape)) : List (String × Json) → Bool
  | [] => true
  | (key, value) :: rest =>
    (match known.lookup key with
      | some shape => proper shape value
      | none => true) && properFields known rest

end

/-! ## Known fields only -/

/-- the fields that may be left out and are, written as `null` -/
def missing (known : List (String × Shape)) (fields : List (String × Json)) : List (String × Json) :=
  (known.filter fun k => k.2 = .optional && (fields.lookup k.1).isNone).map fun k => (k.1, .null)

mutual

/-- the known fields, and `null` for those that may be missing and are; `rewrite` says what becomes of other parts -/
def tidy (rewrite : Shape → Json → Json) (shape : Shape) : Json → Json
  | .obj fields =>
    match shape.fields? fields with
    | some known => .obj (tidyFields rewrite known fields ++ missing known fields)
    | none => rewrite shape (.obj fields)
  | .arr items =>
    match shape.item? with
    | some item => .arr (tidyItems rewrite item items)
    | none => rewrite shape (.arr items)
  | value => rewrite shape value

def tidyItems (rewrite : Shape → Json → Json) (shape : Shape) : List Json → List Json
  | [] => []
  | value :: rest => tidy rewrite shape value :: tidyItems rewrite shape rest

def tidyFields (rewrite : Shape → Json → Json) (known : List (String × Shape)) :
    List (String × Json) → List (String × Json)
  | [] => []
  | (key, value) :: rest =>
    match known.lookup key with
    | some shape => (key, tidy rewrite shape value) :: tidyFields rewrite known rest
    | none => tidyFields rewrite known rest

end

/-! ## The order of keys -/

mutual

/-- the values are equal up to the order of keys -/
inductive Same : Json → Json → Prop where
  | refl (value : Json) : Same value value
  | arr {items items' : List Json} (h : SameItems items items') : Same (.arr items) (.arr items')
  | obj {fields fields' ordered : List (String × Json)} (h : SameFields fields ordered)
      (horder : ordered.Perm fields') :
    Same (.obj fields) (.obj fields')

inductive SameItems : List Json → List Json → Prop where
  | nil : SameItems [] []
  | cons {value value' : Json} {rest rest' : List Json} (h : Same value value') (later : SameItems rest rest') :
    SameItems (value :: rest) (value' :: rest')

inductive SameFields : List (String × Json) → List (String × Json) → Prop where
  | nil : SameFields [] []
  | cons {key : String} {value value' : Json} {rest rest' : List (String × Json)} (h : Same value value')
      (later : SameFields rest rest') : SameFields ((key, value) :: rest) ((key, value') :: rest')

end

variable {rewrite : Shape → Json → Json} {known part : List (String × Shape)}
  {fields written : List (String × Json)} {key : String} {value : Json} {shape : Shape}

/-- each field stands on the other side too -/
theorem Same.field {fields' : List (String × Json)} (h : Same (.obj fields) (.obj fields'))
    (hvalue : (key, value) ∈ fields) :
    ∃ value', (key, value') ∈ fields' ∧ Same value value' := by
  cases h with
  | refl => exact ⟨value, hvalue, .refl _⟩
  | @obj _ _ ordered hfields horder =>
    suffices hordered : ∃ value', (key, value') ∈ ordered ∧ Same value value' by
      obtain ⟨value', hmem, hsame⟩ := hordered
      exact ⟨value', horder.mem_iff.1 hmem, hsame⟩
    clear horder
    induction fields generalizing ordered with
    | nil => cases hvalue
    | cons field rest ih =>
      cases hfields with
      | cons hsame later =>
        rcases List.mem_cons.1 hvalue with heq | hvalue
        · cases heq
          exact ⟨_, List.mem_cons_self, hsame⟩
        · obtain ⟨value', hmem, hsame⟩ := ih hvalue later
          exact ⟨value', List.mem_cons_of_mem _ hmem, hsame⟩

theorem Same.eq_str {text : String} (h : Same (.str text) value) : value = .str text := by
  cases h
  rfl

/-! ## Fields in the order of the shape -/

theorem mem_of_lookup {α : Type} {l : List (String × α)} {a : α} (h : l.lookup key = some a) : (key, a) ∈ l := by
  obtain ⟨l₁, l₂, rfl, -⟩ := List.lookup_eq_some_iff.1 h
  simp

/-- a known field of a proper object is proper -/
theorem proper_of_lookup (h : properFields known fields = true) (hvalue : (key, value) ∈ fields)
    (hshape : known.lookup key = some shape) : proper shape value = true := by
  induction fields with
  | nil => cases hvalue
  | cons field rest ih =>
    obtain ⟨key', value'⟩ := field
    rw [properFields, Bool.and_eq_true] at h
    rcases List.mem_cons.1 hvalue with heq | hvalue
    · cases heq
      rw [hshape] at h
      exact h.1
    · exact ih h.2 hvalue

theorem mem_tidyFields : (key, value) ∈ tidyFields rewrite known fields ↔
    ∃ shape given, known.lookup key = some shape ∧ (key, given) ∈ fields ∧ value = tidy rewrite shape given := by
  induction fields with
  | nil => simp [tidyFields]
  | cons field rest ih =>
    obtain ⟨key', given⟩ := field
    unfold tidyFields
    split
    · rename_i shape hshape
      rw [List.mem_cons, ih]
      constructor
      · rintro (heq | ⟨shape, given, hknown, hgiven, rfl⟩)
        · cases heq
          exact ⟨shape, given, hshape, List.mem_cons_self, rfl⟩
        · exact ⟨shape, given, hknown, List.mem_cons_of_mem _ hgiven, rfl⟩
      · rintro ⟨shape', given', hknown, hgiven, rfl⟩
        rcases List.mem_cons.1 hgiven with heq | hgiven
        · cases heq
          cases hshape.symm.trans hknown
          exact .inl rfl
        · exact .inr ⟨shape', given', hknown, hgiven, rfl⟩
    · rename_i hnone
      rw [ih]
      constructor
      · rintro ⟨shape, given, hknown, hgiven, rfl⟩
        exact ⟨shape, given, hknown, List.mem_cons_of_mem _ hgiven, rfl⟩
      · rintro ⟨shape, given', hknown, hgiven, rfl⟩
        rcases List.mem_cons.1 hgiven with heq | hgiven
        · cases heq
          cases hnone.symm.trans hknown
        · exact ⟨shape, given', hknown, hgiven, rfl⟩

theorem mem_missing : (key, value) ∈ missing known fields ↔
    (key, Shape.optional) ∈ known ∧ fields.lookup key = none ∧ value = .null := by
  simp only [missing, List.mem_map, List.mem_filter, Bool.and_eq_true, decide_eq_true_eq, Option.isNone_iff_eq_none]
  constructor
  · rintro ⟨⟨key', shape⟩, ⟨hmem, rfl, hnone⟩, heq⟩
    cases heq
    exact ⟨hmem, hnone, rfl⟩
  · rintro ⟨hmem, hnone, rfl⟩
    exact ⟨(key, .optional), ⟨hmem, rfl, hnone⟩, rfl⟩

theorem tidyFields_keys : ((tidyFields rewrite known fields).map Prod.fst).Sublist (fields.map Prod.fst) := by
  induction fields with
  | nil => exact List.Sublist.slnil
  | cons field rest ih =>
    unfold tidyFields
    split
    · exact ih.cons_cons _
    · exact ih.cons _

theorem missing_keys : ((missing known fields).map Prod.fst).Sublist (known.map Prod.fst) := by
  rw [missing, List.map_map]
  exact List.filter_sublist.map _

theorem nodup_tidy (hfields : (fields.map Prod.fst).Nodup) (hknown : (known.map Prod.fst).Nodup) :
    ((tidyFields rewrite known fields ++ missing known fields).map Prod.fst).Nodup := by
  rw [List.map_append]
  refine List.Nodup.append (hfields.sublist tidyFields_keys) (hknown.sublist missing_keys) ?_
  intro key hgiven hmissing
  obtain ⟨⟨_, value⟩, hmem, rfl⟩ := List.mem_map.1 hgiven
  obtain ⟨⟨_, value'⟩, hmem', hkey⟩ := List.mem_map.1 hmissing
  obtain ⟨shape, given, -, hfield, -⟩ := mem_tidyFields.1 hmem
  cases hkey
  have hnone := (mem_missing.1 hmem').2.1
  rw [Image.lookup_of_mem hfields hfield] at hnone
  cases hnone

/-- a field for each of `part`, in that order, as it stands in `fields` -/
inductive Arranged (rewrite : Shape → Json → Json) (fields : List (String × Json)) :
    List (String × Json) → List (String × Shape) → Prop where
  | nil : Arranged rewrite fields [] []
  | given {key : String} {shape : Shape} {value given : Json} {written : List (String × Json)}
      {part : List (String × Shape)} (hgiven : fields.lookup key = some given)
      (h : Same value (tidy rewrite shape given))
      (later : Arranged rewrite fields written part) :
    Arranged rewrite fields ((key, value) :: written) ((key, shape) :: part)
  | missing {key : String} {written : List (String × Json)} {part : List (String × Shape)}
      (hmissing : fields.lookup key = none) (later : Arranged rewrite fields written part) :
    Arranged rewrite fields ((key, .null) :: written) ((key, .optional) :: part)

/-- what is arranged has the tidy values, in the order of `part` -/
theorem Arranged.ordered (h : Arranged rewrite fields written part) :
    ∃ ordered, SameFields written ordered ∧ ordered.map Prod.fst = part.map Prod.fst ∧
      ∀ key value, (key, value) ∈ ordered → ∃ shape, (key, shape) ∈ part ∧
        ((∃ given, fields.lookup key = some given ∧ value = tidy rewrite shape given) ∨
          shape = .optional ∧ fields.lookup key = none ∧ value = .null) := by
  induction h with
  | nil => exact ⟨[], .nil, rfl, nofun⟩
  | @given key shape value given _ _ hgiven h _ ih =>
    obtain ⟨ordered, hsame, hkeys, hmem⟩ := ih
    refine ⟨(key, tidy rewrite shape given) :: ordered, .cons h hsame, congrArg (key :: ·) hkeys, ?_⟩
    intro key' value' hvalue
    rcases List.mem_cons.1 hvalue with heq | hvalue
    · cases heq
      exact ⟨shape, List.mem_cons_self, .inl ⟨given, hgiven, rfl⟩⟩
    · obtain ⟨shape', hpart, hcases⟩ := hmem key' value' hvalue
      exact ⟨shape', List.mem_cons_of_mem _ hpart, hcases⟩
  | @missing key _ _ hmissing _ ih =>
    obtain ⟨ordered, hsame, hkeys, hmem⟩ := ih
    refine ⟨(key, .null) :: ordered, .cons (.refl _) hsame, congrArg (key :: ·) hkeys, ?_⟩
    intro key' value' hvalue
    rcases List.mem_cons.1 hvalue with heq | hvalue
    · cases heq
      exact ⟨.optional, List.mem_cons_self, .inr ⟨rfl, hmissing, rfl⟩⟩
    · obtain ⟨shape', hpart, hcases⟩ := hmem key' value' hvalue
      exact ⟨shape', List.mem_cons_of_mem _ hpart, hcases⟩

/-- fields that are arranged like all known ones are the tidy fields up to order -/
theorem same_tidy (hfields : (fields.map Prod.fst).Nodup) (hknown : (known.map Prod.fst).Nodup)
    (h : Arranged rewrite fields written known) :
    Same (.obj written) (.obj (tidyFields rewrite known fields ++ missing known fields)) := by
  obtain ⟨ordered, hsame, hkeys, hmem⟩ := h.ordered
  have hordered : (ordered.map Prod.fst).Nodup := hkeys ▸ hknown
  have hsubset : ordered ⊆ tidyFields rewrite known fields ++ missing known fields := by
    rintro ⟨key, value⟩ hvalue
    obtain ⟨shape, hshape, ⟨given, hgiven, rfl⟩ | ⟨rfl, hnone, rfl⟩⟩ := hmem key value hvalue
    · have hlookup := Image.lookup_of_mem hknown hshape
      exact List.mem_append_left _ (mem_tidyFields.2 ⟨shape, given, hlookup, mem_of_lookup hgiven, rfl⟩)
    · exact List.mem_append_right _ (mem_missing.2 ⟨hshape, hnone, rfl⟩)
  have hknownKeys : (tidyFields rewrite known fields ++ missing known fields).map Prod.fst ⊆ ordered.map Prod.fst := by
    rw [hkeys, List.map_append]
    intro key hkey
    rcases List.mem_append.1 hkey with hgiven | hmissing
    · obtain ⟨⟨_, value⟩, hmem, rfl⟩ := List.mem_map.1 hgiven
      obtain ⟨shape, given, hlookup, -⟩ := mem_tidyFields.1 hmem
      exact List.mem_map_of_mem (mem_of_lookup hlookup)
    · exact missing_keys.subset hmissing
  -- both have each key once, so neither is longer
  have hlength := ((nodup_tidy hfields hknown).subperm hknownKeys).length_le
  rw [List.length_map, List.length_map] at hlength
  exact .obj hsame (((List.Nodup.of_map _ hordered).subperm hsubset).perm_of_length_le hlength)

end Json

end ThreeMachines
