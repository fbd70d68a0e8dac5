/-
Expressions survive the way through JSON, and so does what a JSON value says of one.

- `Expr.json_roundTrip`: the value that is written for an expression is read as that expression; and the expression that
  is read from a proper value is written as that value, tidied up, in some order of keys.
- `Expr.operatorObject_kindNumber_spelled`: an operator that was given as an object and a kind that was given by its
  number come back as names, so tidying has to spell them.

The first half is an induction over the expression. The second is one over the value: `Restored` says of a value that
what is read from it is written as it; an object has that from the values of its fields (`restored_parts`), which are
smaller. The decoder takes the fields that it asks for out of those that were given (`of_get?`), in the order in which
they are written (`WrittenFrom`); that is one case for each kind (`writtenFrom_of_parts`).
-/
import ThreeMachines.Proofs.Data.Forms
import ThreeMachines.Proofs.Words

namespace ThreeMachines

open Json

/-! ## Names and words -/

namespace UnaryOp

theorem ofName?_name (op : UnaryOp) : ofName? op.name = some op := by cases op <;> decide

theorem name_of_ofName? {name : String} {op : UnaryOp} (h : ofName? name = some op) : op.name = name := by
  simpa using List.find?_some h

end UnaryOp

namespace BinaryOp

theorem ofName?_name (op : BinaryOp) : ofName? op.name = some op := by cases op <;> decide

theorem name_of_ofName? {name : String} {op : BinaryOp} (h : ofName? name = some op) : op.name = name := by
  simpa using List.find?_some h

end BinaryOp

namespace Json

variable {value : Json} {name : String}

theorem word?_int (n : Int64) : (int n.toInt).word? = some n := by
  rw [int, word?, if_pos (isWord_toInt n), Int64.ofInt_toInt]

theorem eq_of_word? {n : Int64} (h : value.word? = some n) : value = int n.toInt := by
  unfold word? at h
  split at h
  · split at h
    · rename_i m hm
      cases h
      rw [isWord_iff, leastWord, greatestWord] at hm
      rw [int, Int64.toInt_ofInt_of_le (by omega) (by omega)]
    · cases h
  · cases h

theorem eq_of_bool? {b : Bool} (h : value.bool? = some b) : value = .bool b := by
  unfold bool? at h
  split at h <;> cases h
  rfl

theorem eq_of_text? (h : value.text? = some name) : value = .str name := by
  unfold text? at h
  split at h <;> cases h
  rfl

theorem texts?_names (ns : List String) : (Expr.names ns).texts? = some ns := by
  rw [Expr.names, texts?]
  induction ns with
  | nil => rfl
  | cons n ns ih => rw [List.map_cons, List.mapM_cons, ih]; rfl

theorem eq_of_texts? {ns : List String} (h : value.texts? = some ns) : value = Expr.names ns := by
  unfold texts? at h
  split at h
  · rename_i items
    rw [Expr.names]
    congr 1
    induction items generalizing ns with
    | nil => cases h; rfl
    | cons item items ih =>
      rw [List.mapM_cons] at h
      obtain ⟨n, hn, h⟩ := Option.bind_eq_some_iff.1 h
      obtain ⟨later, hlater, h⟩ := Option.bind_eq_some_iff.1 h
      cases h
      rw [eq_of_text? hn, ih hlater, List.map_cons]
  · cases h

/-- a name that a value gives is how an operator is spelled -/
theorem spelled_of_tag? (h : value.tag? = some name) : spelled .operator value = .str name := by
  unfold tag? at h
  split at h <;> cases h <;> rfl

/-- a kind, by name or by number, is spelled as its name -/
theorem spelled_of_innerKind? (h : Expr.innerKind? value = some name) : spelled .kind value = .str name := by
  unfold Expr.innerKind? at h
  split at h
  · cases h
    rfl
  · rw [spelled, h]
  · cases h

theorem field?_eq_lookup (name : String) (fields : List (String × Json)) :
    (field? name fields).map Subtype.val = fields.lookup name := by
  induction fields with
  | nil => rfl
  | cons field rest ih =>
    obtain ⟨key, value⟩ := field
    rw [field?, List.lookup_cons]
    by_cases hkey : key = name
    · rw [if_pos hkey, beq_iff_eq.2 hkey.symm]
      rfl
    · rw [if_neg hkey, beq_eq_false_iff_ne.2 (Ne.symm hkey), ← ih, Option.map_map]
      rfl

end Json

namespace Expr

/-! ## Written, then read -/

theorem ofInner?_kind (kind : String) (fields : List (String × Json)) :
    ofInner? (.obj (("kind", .str kind) :: fields)) = ofParts? kind (.named (("kind", .str kind) :: fields)) := by
  simp [ofInner?, field?, innerKind?]

theorem ofJson?_kind (kind : String) (fields : List (String × Json)) :
    ofJson? (.obj (("kind", .str kind) :: fields)) = ofParts? kind (.named (("kind", .str kind) :: fields)) := by
  simp [ofJson?, field?, text?]

mutual

theorem ofInner?_toJson (e : Expr) : ofInner? e.toJson = some e := by
  cases e with
  | number value => simp [toJson, ofInner?_kind, ofParts?, Parts.fits?, Parts.get?, field?, word?_int]
  | bool value => simp [toJson, ofInner?_kind, ofParts?, Parts.fits?, Parts.get?, field?, bool?]
  | var name => simp [toJson, ofInner?_kind, ofParts?, Parts.fits?, Parts.get?, field?, text?]
  | unary op operand =>
    have hoperand := ofInner?_toJson operand
    simp [toJson, ofInner?_kind, ofParts?, Parts.fits?, Parts.get?, field?, tag?, UnaryOp.ofName?_name, hoperand]
  | binary op lhs rhs =>
    have hlhs := ofInner?_toJson lhs
    have hrhs := ofInner?_toJson rhs
    simp [toJson, ofInner?_kind, ofParts?, Parts.fits?, Parts.get?, field?, tag?, BinaryOp.ofName?_name, hlhs, hrhs]
  | assign name value =>
    have hvalue := ofInner?_toJson value
    simp [toJson, ofInner?_kind, ofParts?, Parts.fits?, Parts.get?, field?, text?, hvalue]
  | seq items =>
    have hitems := listOfItems?_listToJson items
    simp [toJson, ofInner?_kind, ofParts?, Parts.fits?, Parts.get?, field?, listOfJson?, hitems]
  | ite cond thenBranch elseBranch =>
    have hcond := ofInner?_toJson cond
    have hthen := ofInner?_toJson thenBranch
    have helse := optionOfJson?_optionToJson elseBranch
    simp [toJson, ofInner?_kind, ofParts?, Parts.fits?, Parts.get?, field?, hcond, hthen, helse]
  | whileDo cond body =>
    have hcond := ofInner?_toJson cond
    have hbody := ofInner?_toJson body
    simp [toJson, ofInner?_kind, ofParts?, Parts.fits?, Parts.get?, field?, hcond, hbody]
  | doWhile body cond =>
    have hbody := ofInner?_toJson body
    have hcond := ofInner?_toJson cond
    simp [toJson, ofInner?_kind, ofParts?, Parts.fits?, Parts.get?, field?, hbody, hcond]
  | loop count body =>
    have hcount := ofInner?_toJson count
    have hbody := ofInner?_toJson body
    simp [toJson, ofInner?_kind, ofParts?, Parts.fits?, Parts.get?, field?, hcount, hbody]
  | block bindings body =>
    have hbindings := bindingsOfItems?_bindingsToJson bindings
    have hbody := ofInner?_toJson body
    simp [toJson, ofInner?_kind, ofParts?, Parts.fits?, Parts.get?, field?, bindingsOfJson?, hbindings, hbody]
  | lambda params body =>
    have hbody := ofInner?_toJson body
    simp [toJson, ofInner?_kind, ofParts?, Parts.fits?, Parts.get?, field?, texts?_names, hbody]
  | proc params locals body =>
    have hbody := ofInner?_toJson body
    simp [toJson, ofInner?_kind, ofParts?, Parts.fits?, Parts.get?, field?, texts?_names, hbody]
  | call callee args =>
    have hcallee := ofInner?_toJson callee
    have hargs := listOfItems?_listToJson args
    simp [toJson, ofInner?_kind, ofParts?, Parts.fits?, Parts.get?, field?, listOfJson?, hcallee, hargs]

theorem listOfItems?_listToJson (es : List Expr) : listOfItems? (listToJson es) = some es := by
  cases es with
  | nil => rw [listToJson, listOfItems?]
  | cons e es => simp [listToJson, listOfItems?, ofInner?_toJson e, listOfItems?_listToJson es]

theorem optionOfJson?_optionToJson (o : Option Expr) : optionOfJson? (optionToJson o) = some o := by
  cases o with
  | none => rw [optionToJson, optionOfJson?]
  | some e =>
    have he := ofInner?_toJson e
    have hnull : e.toJson ≠ .null := by
      intro hnull
      rw [hnull, ofInner?] at he
      · cases he
      all_goals nofun
    rw [optionToJson, optionOfJson?, he]
    · rfl
    · exact hnull

theorem bindingsOfItems?_bindingsToJson (bs : List (String × Expr)) :
    bindingsOfItems? (bindingsToJson bs) = some bs := by
  cases bs with
  | nil => rw [bindingsToJson, bindingsOfItems?]
  | cons b bs =>
    obtain ⟨name, value⟩ := b
    have hvalue := ofInner?_toJson value
    have hlater := bindingsOfItems?_bindingsToJson bs
    simp [bindingsToJson, bindingsOfItems?, bindingOfParts?, Parts.fits?, Parts.get?, field?, text?, hvalue, hlater]

end

/-- what is written for an expression is read as it -/
theorem ofJson?_toJson (e : Expr) : ofJson? e.toJson = some e := by
  have h := ofInner?_toJson e
  cases e <;> exact (ofJson?_kind _ _).trans ((ofInner?_kind _ _).symm.trans h)

/-! ## Read, then written -/

/-- the value, if it is read, is written as it was, up to tidiness and order -/
def Restored (value : Json) : Prop :=
  ∀ e, ofInner? value = some e → proper .expr value = true → Same e.toJson (tidy spelled .expr value)

variable {value : Json} {fields : List (String × Json)}

theorem same_spelled {shape : Shape} {written : Json} (hshape : shape ∈ [.data, .operator, .kind])
    (h : spelled shape value = written) : Same written (tidy spelled shape value) := by
  have htidy : tidy spelled shape value = spelled shape value := by
    fin_cases hshape <;> cases value <;> rfl
  rw [htidy, h]
  exact .refl _

theorem same_data {written : Json} (h : value = written) : Same written (tidy spelled .data value) :=
  same_spelled (by decide) (by rw [← h]; cases value <;> rfl)

theorem same_optional {o : Option Expr} (h : optionOfJson? value = some o) (hproper : proper .optional value = true)
    (hvalue : Restored value) : Same (optionToJson o) (tidy spelled .optional value) := by
  unfold optionOfJson? at h
  split at h
  · cases h
    exact .refl _
  · obtain ⟨e, he, rfl⟩ := Option.map_eq_some_iff.1 h
    cases value with
    | obj fields => exact hvalue e he hproper
    | arr items => cases hproper
    | null | bool | number | str =>
      rw [ofInner?] at he
      · cases he
      all_goals nofun

theorem same_items {items : List Json} {es : List Expr} (h : listOfItems? items = some es)
    (hproper : properItems .expr items = true) (hitems : ∀ v, sizeOf v < sizeOf items → Restored v) :
    SameItems (listToJson es) (tidyItems spelled .expr items) := by
  induction items generalizing es with
  | nil =>
    rw [listOfItems?] at h
    cases h
    exact .nil
  | cons item rest ih =>
    rw [listOfItems?] at h
    obtain ⟨e, he, h⟩ := Option.bind_eq_some_iff.1 h
    obtain ⟨later, hlater, h⟩ := Option.bind_eq_some_iff.1 h
    cases h
    rw [properItems, Bool.and_eq_true] at hproper
    refine .cons (hitems item (by simp; omega) e he hproper.1) (ih hlater hproper.2 fun v hv => hitems v ?_)
    simp
    omega

theorem same_exprs {es : List Expr} (h : listOfJson? value = some es) (hproper : proper .exprs value = true)
    (hitems : ∀ v, sizeOf v < sizeOf value → Restored v) :
    Same (.arr (listToJson es)) (tidy spelled .exprs value) := by
  unfold listOfJson? at h
  split at h
  · refine .arr (same_items h hproper fun v hv => hitems v ?_)
    simp
    omega
  · cases h

/-! ## Fields -/

theorem of_bind {α β : Type} {x : Option α} {k : α → Option β} {b : β} (h : (x >>= k) = some b) :
    ∃ a, x = some a ∧ k a = some b := Option.bind_eq_some_iff.1 h

/-- named parts may come with others -/
theorem of_fits? {β : Type} {count : Nat} {b : β} {k : Unit → Option β}
    (h : ((Parts.named fields).fits? count >>= k) = some b) : k () = some b := h

theorem lookup_of_get? {index : Nat} {name : String} {v : { v : Json // sizeOf v < sizeOf (Parts.named fields) }}
    (h : (Parts.named fields).get? index name = some v) : fields.lookup name = some v.1 := by
  rw [Parts.get?] at h
  obtain ⟨w, hw, rfl⟩ := Option.map_eq_some_iff.1 h
  rw [← field?_eq_lookup, hw]
  rfl

theorem lookup_of_get?_none {index : Nat} {name : String} (h : (Parts.named fields).get? index name = none) :
    fields.lookup name = none := by
  rw [Parts.get?, Option.map_eq_none_iff] at h
  rw [← field?_eq_lookup, h]
  rfl

/-- a named part that is read is one of the fields -/
theorem of_get? {β : Type} {index : Nat} {name : String} {b : β}
    {k : { v : Json // sizeOf v < sizeOf (Parts.named fields) } → Option β}
    (h : ((Parts.named fields).get? index name >>= k) = some b) :
    ∃ v hv, fields.lookup name = some v ∧ k ⟨v, hv⟩ = some b := by
  obtain ⟨v, hv, hk⟩ := of_bind h
  exact ⟨v.1, v.2, lookup_of_get? hv, hk⟩

/-- one field is asked for, and read by `f` -/
theorem of_one {α β : Type} {n : String} {f : Json → Option α} {g : α → β} {b : β}
    (h : ((Parts.named fields).fits? 1 >>= fun _ => (Parts.named fields).get? 0 n >>= fun v =>
      f v.1 >>= fun x => some (g x)) = some b) :
    ∃ v x, fields.lookup n = some v ∧ f v = some x ∧ b = g x := by
  obtain ⟨v, _, hv, h⟩ := of_get? (of_fits? h)
  obtain ⟨x, hx, h⟩ := of_bind h
  cases h
  exact ⟨v, x, hv, hx, rfl⟩

/-- two fields are asked for, then the first is read by `f` and the second by `g` -/
theorem of_two {α β γ : Type} {n m : String} {f : Json → Option α} {g : Json → Option β} {k : α → β → γ} {c : γ}
    (h : ((Parts.named fields).fits? 2 >>= fun _ => (Parts.named fields).get? 0 n >>= fun v =>
      (Parts.named fields).get? 1 m >>= fun w => f v.1 >>= fun x => g w.1 >>= fun y => some (k x y)) = some c) :
    ∃ v w x y, fields.lookup n = some v ∧ fields.lookup m = some w ∧ f v = some x ∧ g w = some y ∧ c = k x y := by
  obtain ⟨v, _, hv, h⟩ := of_get? (of_fits? h)
  obtain ⟨w, _, hw, h⟩ := of_get? h
  obtain ⟨x, hx, h⟩ := of_bind h
  obtain ⟨y, hy, h⟩ := of_bind h
  cases h
  exact ⟨v, w, x, y, hv, hw, hx, hy, rfl⟩

/-- what the fields that hold expressions need -/
structure Ready (known : List (String × Shape)) (fields : List (String × Json)) : Prop where
  nodup : (fields.map Prod.fst).Nodup
  proper : properFields known fields = true
  restored : ∀ v, sizeOf v < sizeOf (Parts.named fields) → Restored v

namespace Ready

variable {known : List (String × Shape)} {name : String} {v : Json}

theorem proper_lookup (h : Ready known fields) {shape : Shape} (hv : fields.lookup name = some v)
    (hshape : known.lookup name = some shape) : Json.proper shape v = true :=
  proper_of_lookup h.proper (mem_of_lookup hv) hshape

theorem smaller (hv : fields.lookup name = some v) : sizeOf v < sizeOf (Parts.named fields) := by
  have hlt := List.sizeOf_lt_of_mem (mem_of_lookup hv)
  simp at hlt ⊢
  omega

theorem expr (h : Ready known fields) {e : Expr} (hv : fields.lookup name = some v)
    (hshape : known.lookup name = some .expr) (he : ofInner? v = some e) : Same e.toJson (tidy spelled .expr v) :=
  h.restored v (smaller hv) e he (h.proper_lookup hv hshape)

theorem exprs (h : Ready known fields) {es : List Expr} (hv : fields.lookup name = some v)
    (hshape : known.lookup name = some .exprs) (hes : listOfJson? v = some es) :
    Same (.arr (listToJson es)) (tidy spelled .exprs v) :=
  same_exprs hes (h.proper_lookup hv hshape) fun w hw => h.restored w (hw.trans (smaller hv))

theorem optional (h : Ready known fields) {o : Option Expr} (hv : fields.lookup name = some v)
    (hshape : known.lookup name = some .optional) (ho : optionOfJson? v = some o) :
    Same (optionToJson o) (tidy spelled .optional v) :=
  same_optional ho (h.proper_lookup hv hshape) (h.restored v (smaller hv))

end Ready

theorem same_binding {b : String × Expr} (h : bindingOfParts? (.named fields) = some b)
    (hproper : proper .binding (.obj fields) = true)
    (hparts : ∀ v, sizeOf v < sizeOf (Parts.named fields) → Restored v) :
    Same (.obj [("name", .str b.1), ("value", b.2.toJson)]) (tidy spelled .binding (.obj fields)) := by
  rw [proper, Shape.fields?, Bool.and_eq_true, decide_eq_true_eq] at hproper
  have hready : Ready _ fields := ⟨hproper.1, hproper.2, hparts⟩
  unfold bindingOfParts? at h
  obtain ⟨_, _, n, e, hname, hvalue, hn, he, rfl⟩ := of_two (f := text?) (g := ofInner?) h
  refine same_tidy hproper.1 (by decide) ?_
  exact .given hname (same_data (eq_of_text? hn)) (.given hvalue (hready.expr hvalue rfl he) .nil)

theorem same_bindingItems {items : List Json} {bs : List (String × Expr)} (h : bindingsOfItems? items = some bs)
    (hproper : properItems .binding items = true) (hitems : ∀ v, sizeOf v < sizeOf items → Restored v) :
    SameItems (bindingsToJson bs) (tidyItems spelled .binding items) := by
  induction items generalizing bs with
  | nil =>
    rw [bindingsOfItems?] at h
    cases h
    exact .nil
  | cons item rest ih =>
    rw [properItems, Bool.and_eq_true] at hproper
    have hrest : ∀ v, sizeOf v < sizeOf rest → Restored v := fun v hv => hitems v (by simp; omega)
    unfold bindingsOfItems? at h
    split at h
    · rename_i heq
      cases heq
    · rename_i fields rest' heq
      cases heq
      obtain ⟨b, hb, h⟩ := of_bind h
      obtain ⟨later, hlater, h⟩ := of_bind h
      cases h
      exact .cons (same_binding hb hproper.1 fun v hv => hitems v (by simp at hv ⊢; omega)) (ih hlater hproper.2 hrest)
    · rename_i heq
      cases heq
      cases hproper.1
    · cases h

theorem same_bindings {bs : List (String × Expr)} (h : bindingsOfJson? value = some bs)
    (hproper : proper .bindings value = true) (hitems : ∀ v, sizeOf v < sizeOf value → Restored v) :
    Same (.arr (bindingsToJson bs)) (tidy spelled .bindings value) := by
  unfold bindingsOfJson? at h
  split at h
  · refine .arr (same_bindingItems h hproper fun v hv => hitems v ?_)
    simp
    omega
  · cases h

theorem Ready.bindings {known : List (String × Shape)} {name : String} {v : Json} (h : Ready known fields)
    {bs : List (String × Expr)} (hv : fields.lookup name = some v) (hshape : known.lookup name = some .bindings)
    (hbs : bindingsOfJson? v = some bs) : Same (.arr (bindingsToJson bs)) (tidy spelled .bindings v) :=
  same_bindings hbs (h.proper_lookup hv hshape) fun w hw => h.restored w (hw.trans (smaller hv))

/-- after its kind, the expression is written with the other fields of the kind's shape, each as it was given -/
def WrittenFrom (fields : List (String × Json)) (kind : String) (e : Expr) : Prop :=
  ∃ written part, e.toJson = .obj (("kind", .str kind) :: written) ∧
    Shape.fieldsOf kind = ("kind", .kind) :: part ∧ Arranged spelled fields written part

theorem writtenFrom_unary {e : Expr} (hready : Ready (Shape.fieldsOf "unary") fields)
    (h : ofParts? "unary" (.named fields) = some e) : WrittenFrom fields "unary" e := by
  rw [ofParts?] at h
  obtain ⟨op, _, hop, h⟩ := of_get? (of_fits? h)
  obtain ⟨operand, _, hoperand, h⟩ := of_get? h
  obtain ⟨tag, htag, h⟩ := of_bind h
  obtain ⟨o, ho, h⟩ := of_bind h
  obtain ⟨e, he, h⟩ := of_bind h
  cases h
  have hspelled : spelled .operator op = .str o.name := by rw [spelled_of_tag? htag, UnaryOp.name_of_ofName? ho]
  exact ⟨_, _, rfl, rfl, .given hop (same_spelled (by decide) hspelled)
    (.given hoperand (hready.expr hoperand rfl he) .nil)⟩

theorem writtenFrom_binary {e : Expr} (hready : Ready (Shape.fieldsOf "binary") fields)
    (h : ofParts? "binary" (.named fields) = some e) : WrittenFrom fields "binary" e := by
  rw [ofParts?] at h
  obtain ⟨op, _, hop, h⟩ := of_get? (of_fits? h)
  obtain ⟨lhs, _, hlhs, h⟩ := of_get? h
  obtain ⟨rhs, _, hrhs, h⟩ := of_get? h
  obtain ⟨tag, htag, h⟩ := of_bind h
  obtain ⟨o, ho, h⟩ := of_bind h
  obtain ⟨l, hl, h⟩ := of_bind h
  obtain ⟨r, hr, h⟩ := of_bind h
  cases h
  have hspelled : spelled .operator op = .str o.name := by rw [spelled_of_tag? htag, BinaryOp.name_of_ofName? ho]
  exact ⟨_, _, rfl, rfl, .given hop (same_spelled (by decide) hspelled)
    (.given hlhs (hready.expr hlhs rfl hl) (.given hrhs (hready.expr hrhs rfl hr) .nil))⟩

/-- the one kind with a field that may be missing -/
theorem writtenFrom_if {e : Expr} (hready : Ready (Shape.fieldsOf "if") fields)
    (h : ofParts? "if" (.named fields) = some e) : WrittenFrom fields "if" e := by
  rw [ofParts?] at h
  obtain ⟨cond, _, hcond, h⟩ := of_get? (of_fits? h)
  obtain ⟨thenBranch, _, hthen, h⟩ := of_get? h
  cases helse : (Parts.named fields).get? 2 "else_branch" with
  | some elseBranch =>
    rw [helse] at h
    obtain ⟨c, hc, h⟩ := of_bind h
    obtain ⟨t, ht, h⟩ := of_bind h
    obtain ⟨o, ho, h⟩ := of_bind h
    cases h
    have helse := lookup_of_get? helse
    exact ⟨_, _, rfl, rfl, .given hcond (hready.expr hcond rfl hc) (.given hthen (hready.expr hthen rfl ht)
      (.given helse (hready.optional helse rfl ho) .nil))⟩
  | none =>
    rw [helse] at h
    obtain ⟨-, -, h⟩ := of_bind h
    obtain ⟨c, hc, h⟩ := of_bind h
    obtain ⟨t, ht, h⟩ := of_bind h
    cases h
    exact ⟨_, _, rfl, rfl, .given hcond (hready.expr hcond rfl hc) (.given hthen (hready.expr hthen rfl ht)
      (.missing (lookup_of_get?_none helse) .nil))⟩

theorem writtenFrom_proc {e : Expr} (hready : Ready (Shape.fieldsOf "proc") fields)
    (h : ofParts? "proc" (.named fields) = some e) : WrittenFrom fields "proc" e := by
  rw [ofParts?] at h
  obtain ⟨params, _, hparams, h⟩ := of_get? (of_fits? h)
  obtain ⟨locals, _, hlocals, h⟩ := of_get? h
  obtain ⟨body, _, hbody, h⟩ := of_get? h
  obtain ⟨ps, hps, h⟩ := of_bind h
  obtain ⟨ls, hls, h⟩ := of_bind h
  obtain ⟨b, hb, h⟩ := of_bind h
  cases h
  exact ⟨_, _, rfl, rfl, .given hparams (same_data (eq_of_texts? hps))
    (.given hlocals (same_data (eq_of_texts? hls)) (.given hbody (hready.expr hbody rfl hb) .nil))⟩

/-- the decoder takes the fields in the order of the kind's shape, whatever the kind -/
theorem writtenFrom_of_parts {kind : String} {e : Expr} (hready : Ready (Shape.fieldsOf kind) fields)
    (h : ofParts? kind (.named fields) = some e) : WrittenFrom fields kind e := by
  have hparts := h
  unfold ofParts? at h
  -- the cases stand in the order of the decoder, the last one for a name that is no kind
  split at h
  · obtain ⟨_, _, hvalue, hn, rfl⟩ := of_one (f := word?) h
    exact ⟨_, _, rfl, rfl, .given hvalue (same_data (eq_of_word? hn)) .nil⟩
  · obtain ⟨_, _, hvalue, hb, rfl⟩ := of_one (f := bool?) h
    exact ⟨_, _, rfl, rfl, .given hvalue (same_data (eq_of_bool? hb)) .nil⟩
  · obtain ⟨_, _, hname, hn, rfl⟩ := of_one (f := text?) h
    exact ⟨_, _, rfl, rfl, .given hname (same_data (eq_of_text? hn)) .nil⟩
  · exact writtenFrom_unary hready hparts
  · exact writtenFrom_binary hready hparts
  · obtain ⟨_, _, _, _, hname, hvalue, hn, he, rfl⟩ := of_two (f := text?) (g := ofInner?) h
    exact ⟨_, _, rfl, rfl, .given hname (same_data (eq_of_text? hn)) (.given hvalue (hready.expr hvalue rfl he) .nil)⟩
  · obtain ⟨_, _, hitems, hes, rfl⟩ := of_one (f := listOfJson?) h
    exact ⟨_, _, rfl, rfl, .given hitems (hready.exprs hitems rfl hes) .nil⟩
  · exact writtenFrom_if hready hparts
  · obtain ⟨_, _, _, _, hcond, hbody, hc, hb, rfl⟩ := of_two (f := ofInner?) (g := ofInner?) h
    exact ⟨_, _, rfl, rfl, .given hcond (hready.expr hcond rfl hc) (.given hbody (hready.expr hbody rfl hb) .nil)⟩
  · obtain ⟨_, _, _, _, hbody, hcond, hb, hc, rfl⟩ := of_two (f := ofInner?) (g := ofInner?) h
    exact ⟨_, _, rfl, rfl, .given hbody (hready.expr hbody rfl hb) (.given hcond (hready.expr hcond rfl hc) .nil)⟩
  · obtain ⟨_, _, _, _, hcount, hbody, hc, hb, rfl⟩ := of_two (f := ofInner?) (g := ofInner?) h
    exact ⟨_, _, rfl, rfl, .given hcount (hready.expr hcount rfl hc) (.given hbody (hready.expr hbody rfl hb) .nil)⟩
  · obtain ⟨_, _, _, _, hbindings, hbody, hbs, hb, rfl⟩ := of_two (f := bindingsOfJson?) (g := ofInner?) h
    exact ⟨_, _, rfl, rfl, .given hbindings (hready.bindings hbindings rfl hbs)
      (.given hbody (hready.expr hbody rfl hb) .nil)⟩
  · obtain ⟨_, _, _, _, hparams, hbody, hps, hb, rfl⟩ := of_two (f := texts?) (g := ofInner?) h
    exact ⟨_, _, rfl, rfl, .given hparams (same_data (eq_of_texts? hps)) (.given hbody (hready.expr hbody rfl hb) .nil)⟩
  · exact writtenFrom_proc hready hparts
  · obtain ⟨_, _, _, _, hcallee, hargs, hf, has, rfl⟩ := of_two (f := ofInner?) (g := listOfJson?) h
    exact ⟨_, _, rfl, rfl, .given hcallee (hready.expr hcallee rfl hf) (.given hargs (hready.exprs hargs rfl has) .nil)⟩
  · cases h

theorem restored_parts {kind : String} {given : Json} {e : Expr} (hgiven : fields.lookup "kind" = some given)
    (hkind : spelled .kind given = .str kind) (h : ofParts? kind (.named fields) = some e)
    (hproper : proper .expr (.obj fields) = true)
    (hparts : ∀ v, sizeOf v < sizeOf (Parts.named fields) → Restored v) :
    Same e.toJson (tidy spelled .expr (.obj fields)) := by
  have hkindOf : kindOf fields = kind := by
    rw [kindOf, hgiven, Option.map_some, hkind]
  rw [tidy, Shape.fields?, hkindOf]
  rw [proper, Shape.fields?, hkindOf, Bool.and_eq_true, decide_eq_true_eq] at hproper
  have hready : Ready (Shape.fieldsOf kind) fields := ⟨hproper.1, hproper.2, hparts⟩
  obtain ⟨written, part, hwritten, hpart, harranged⟩ := writtenFrom_of_parts hready h
  rw [hwritten]
  refine same_tidy hproper.1 (Shape.nodup_fieldsOf _) ?_
  rw [hpart]
  exact .given hgiven (same_spelled (by decide) hkind) harranged

theorem restored (value : Json) : Restored value := by
  intro e h hproper
  unfold ofInner? at h
  split at h
  · rename_i fields
    obtain ⟨⟨given, _⟩, hfield, h⟩ := of_bind h
    obtain ⟨kind, hkind, h⟩ := of_bind h
    have hlookup : fields.lookup "kind" = some given := by rw [← field?_eq_lookup, hfield]; rfl
    refine restored_parts hlookup (spelled_of_innerKind? hkind) h hproper fun v hv => ?_
    have hless : sizeOf v < sizeOf (Json.obj fields) := by simpa using hv
    exact restored v
  · cases hproper
  · cases h
termination_by sizeOf value

/-- **Round trip.** What is written for an expression is read as it, and what is read from a proper value is written as
that value up to the order of keys: without its unknown fields, with `null` for a missing `else_branch`, and with
operators and kinds spelled by their names. -/
theorem json_roundTrip : (∀ e : Expr, ofJson? e.toJson = some e) ∧
    ∀ (value : Json) (e : Expr), proper .expr value = true → ofJson? value = some e →
      Same e.toJson (tidy spelled .expr value) := by
  refine ⟨ofJson?_toJson, fun value e hproper h => ?_⟩
  unfold ofJson? at h
  split at h
  · rename_i fields
    obtain ⟨⟨given, _⟩, hfield, h⟩ := of_bind h
    obtain ⟨kind, hkind, h⟩ := of_bind h
    have hlookup : fields.lookup "kind" = some given := by rw [← field?_eq_lookup, hfield]; rfl
    have htext : given = .str kind := eq_of_text? hkind
    have hspelled : spelled .kind given = .str kind := by rw [htext]; rfl
    exact restored_parts hlookup hspelled h hproper fun v _ => restored v
  · cases hproper
  · cases h

/-- keys in another order, a field that is not known, a kind by its number, an operator as an object and no
`else_branch` -/
theorem json_roundTrip_untidy :
    ofJson? (.obj [("then_branch", .obj [("op", .obj [("neg", .null)]), ("kind", .str "unary"),
        ("operand", .obj [("value", .int 1), ("kind", .int 0)])]), ("note", .arr [.null]), ("kind", .str "if"),
      ("cond", .obj [("kind", .str "var"), ("name", .str "a")])]) =
        some (.ite (.var "a") (.unary .neg (.number 1)) none) ∧
    Same (toJson (.ite (.var "a") (.unary .neg (.number 1)) none))
      (.obj [("then_branch", .obj [("op", .str "neg"), ("kind", .str "unary"),
          ("operand", .obj [("value", .int 1), ("kind", .str "number")])]), ("kind", .str "if"),
        ("cond", .obj [("kind", .str "var"), ("name", .str "a")]), ("else_branch", .null)]) := by
  have hread : ofJson? (.obj [("then_branch", .obj [("op", .obj [("neg", .null)]), ("kind", .str "unary"),
        ("operand", .obj [("value", .int 1), ("kind", .int 0)])]), ("note", .arr [.null]), ("kind", .str "if"),
      ("cond", .obj [("kind", .str "var"), ("name", .str "a")])]) =
        some (.ite (.var "a") (.unary .neg (.number 1)) none) := by
    with_unfolding_all rfl
  exact ⟨hread, json_roundTrip.2 _ _ (by decide) hread⟩

/-! ## What does not come back as it was given -/

/-- an operator given as an object -/
def operatorObject : Json :=
  .obj [("kind", .str "unary"), ("op", .obj [("neg", .null)]),
    ("operand", .obj [("kind", .str "number"), ("value", .int 1)])]

/-- a kind given by its number -/
def kindNumber : Json :=
  .obj [("kind", .str "unary"), ("op", .str "neg"), ("operand", .obj [("kind", .int 0), ("value", .int 1)])]

/-- read and written, the value is not what it was, although only fields that are unknown or missing are let off -/
def Respelled (value : Json) : Prop :=
  proper .expr value = true ∧
    ∃ e, ofJson? value = some e ∧ ¬ Same e.toJson (tidy (fun _ given => given) .expr value)

theorem operatorObject_kindNumber_spelled : Respelled operatorObject ∧ Respelled kindNumber := by
  have hop : ("op", Json.str "neg") ∈ [("kind", Json.str "unary"), ("op", .str "neg"),
      ("operand", .obj [("kind", .str "number"), ("value", .int 1)])] := by simp
  have hoperand : ("operand", Json.obj [("kind", .str "number"), ("value", .int 1)]) ∈
      [("kind", Json.str "unary"), ("op", .str "neg"),
        ("operand", .obj [("kind", .str "number"), ("value", .int 1)])] := by simp
  have hkind : ("kind", Json.str "number") ∈ [("kind", Json.str "number"), ("value", .int 1)] := by simp
  constructor
  · refine ⟨by decide, .unary .neg (.number 1), by with_unfolding_all rfl, fun hsame => ?_⟩
    rw [show tidy (fun _ given => given) .expr operatorObject = operatorObject from rfl, operatorObject] at hsame
    obtain ⟨op, hfield, h⟩ := hsame.field hop
    rw [h.eq_str] at hfield
    simp at hfield
  · refine ⟨by decide, .unary .neg (.number 1), by with_unfolding_all rfl, fun hsame => ?_⟩
    rw [show tidy (fun _ given => given) .expr kindNumber = kindNumber from rfl, kindNumber] at hsame
    obtain ⟨operand, hfield, h⟩ := hsame.field hoperand
    obtain rfl : operand = .obj [("kind", .int 0), ("value", .int 1)] := by simpa using hfield
    obtain ⟨kind, hfield, h⟩ := h.field hkind
    rw [h.eq_str] at hfield
    simp [int] at hfield

end Expr

end ThreeMachines
