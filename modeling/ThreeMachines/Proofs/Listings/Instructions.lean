/-
The line of an instruction tells which one it is.

A label stands at the margin, everything else behind blanks. The mnemonics of one machine are different from each other
and from the common ones (`Readable`), and each has operands of one form; only a constant is a number or a label, and
of these a label has an underscore in it (`Label.Legible`).

- `Instr.line_inj`: instructions whose labels are legible can be told from the texts of their lines.
- `readable`: this holds for the operations of every machine.
-/
import ThreeMachines.Compile
import ThreeMachines.Proofs.Labels.Allocation
import ThreeMachines.Proofs.Listings.Lines
import ThreeMachines.Syntax.Scan

namespace ThreeMachines

/-- a label that is spelled like a name, with an underscore in it -/
structure Label.Legible (l : Label) : Prop where
  parts : ∀ c ∈ l.text.toList, isNamePart c = true
  underscore : '_' ∈ l.text.toList

@[simp] theorem Label.text_inj {l l' : Label} : l.text = l'.text ↔ l = l' := by
  cases l
  cases l'
  simp

/-- a label can be told from its line -/
theorem Label.colon_inj {l l' : Label} (h : l.text ++ ":" = l'.text ++ ":") : l = l' := by
  have hlist := congrArg String.toList h
  rw [String.toList_append, String.toList_append, List.append_left_inj] at hlist
  exact text_inj.1 (String.toList_inj.1 hlist)

theorem Label.Legible.tight {l : Label} (h : l.Legible) : Tight l.text :=
  .of_class (List.ne_nil_of_mem h.underscore) (by decide) h.parts

/-! ## Numbers -/

@[simp] theorem tight_repr (value : Int) : Tight value.repr := by
  refine .of_class ?_ ?_ fun c hc => mem_repr hc
  · rw [toList_repr]
    exact List.append_ne_nil_of_right_ne_nil _ Nat.toDigits_ne_nil
  · decide

/-- a number has no underscore in it -/
theorem repr_ne_label {value : Int} {l : Label} (hl : l.Legible) : value.repr ≠ l.text := by
  intro h
  have hmem := hl.underscore
  rw [← h] at hmem
  exact absurd (mem_repr hmem) (by decide)

/-! ## Common instructions -/

/-- the labels that an instruction places or names are legible -/
structure Instr.Legible {ι : Type} [Operation ι] (i : Instr ι) : Prop where
  defines : ∀ l, i.defines = some l → l.Legible
  references : ∀ l, i.references = some l → l.Legible

namespace Instr

variable {ι : Type} [Operation ι] {i j : Instr ι} {l : Label}

omit [Operation ι] in
theorem defines_iff : i.defines = some l ↔ i = .label l := by
  cases i <;> simp [defines]

/-- the common instructions without operands -/
def operandless (ι : Type) : List (Instr ι) := [pop, dup, swap, dec] ++ UnaryOp.all.map unary ++ BinaryOp.all.map binary

/-- the mnemonics that every machine has -/
def commonMnemonics : List String :=
  ["loadc", "label", "jump", "jumpz", "pop", "dup", "swap", "dec"] ++ UnaryOp.all.map UnaryOp.name ++
    BinaryOp.all.map BinaryOp.mnemonic

theorem map_operandless : (operandless ι).map mnemonic = commonMnemonics.drop 4 := rfl

theorem nodup_commonMnemonics : commonMnemonics.Nodup := by decide

/-- an instruction without operands is one of these, or one of the machine -/
theorem mem_operandless (hown : ∀ op, i ≠ .own op) (h : i.operands = []) : i ∈ operandless ι := by
  cases i with
  | own op => exact absurd rfl (hown op)
  | unary op => cases op <;> simp [operandless, UnaryOp.all]
  | binary op => cases op <;> simp [operandless, BinaryOp.all]
  | pop | dup | swap | dec => simp [operandless]
  | loadc | label | jump | jumpz => cases h

theorem mem_commonMnemonics (hown : ∀ op, i ≠ .own op) : i.mnemonic ∈ commonMnemonics := by
  by_cases h : i.operands = []
  · have hmem := List.mem_map_of_mem (f := mnemonic) (mem_operandless hown h)
    rw [map_operandless] at hmem
    exact List.mem_of_mem_drop hmem
  · cases i with
    | own op => exact absurd rfl (hown op)
    | loadc | label | jump | jumpz => simp [mnemonic, commonMnemonics]
    | _ => exact absurd rfl h

theorem const_inj {c c' : Const} (hc : ∀ l, c = .addr l → l.Legible) (hc' : ∀ l, c' = .addr l → l.Legible)
    (h : c.text = c'.text) : c = c' := by
  cases c with
  | int value => cases c' with
    | int value' => rw [repr_inj.1 h]
    | addr l' => exact absurd h (repr_ne_label (hc' l' rfl))
  | addr l => cases c' with
    | int value' => exact absurd h.symm (repr_ne_label (hc l rfl))
    | addr l' => exact congrArg Const.addr (Label.text_inj.1 h)

/-- common instructions can be told by their mnemonics and their operands -/
theorem common_inj (hi : i.Legible) (hj : j.Legible) (hown : ∀ op, i ≠ .own op) (hown' : ∀ op, j ≠ .own op)
    (hm : i.mnemonic = j.mnemonic) (hops : i.operands = j.operands) : i = j := by
  by_cases hnil : i.operands = []
  · have hnodup : ((operandless ι).map mnemonic).Nodup := by
      rw [map_operandless]
      exact nodup_commonMnemonics.sublist (List.drop_sublist _ _)
    exact List.inj_on_of_nodup_map hnodup (mem_operandless hown hnil) (mem_operandless hown' (hops ▸ hnil)) hm
  · cases i <;> cases j <;> simp_all [mnemonic, operands]
    case loadc.loadc c c' =>
      refine const_inj (fun l hl => hi.references l ?_) (fun l hl => hj.references l ?_) hops
      · rw [hl, references]
      · rw [hl, references]

end Instr

/-! ## All instructions -/

/-- what is written for an operation tells which one it is -/
class Readable (ι : Type) [Operation ι] : Prop where
  tight : ∀ op : ι, Tight (Operation.mnemonic op)
  operands : ∀ op : ι, (∀ l, Operation.reference op = some l → l.Legible) → ∀ t ∈ Operation.operands op, Tight t
  apart : ∀ op : ι, Operation.mnemonic op ∉ Instr.commonMnemonics
  inj : ∀ op op' : ι, Operation.mnemonic op = Operation.mnemonic op' →
    Operation.operands op = Operation.operands op' → op = op'

namespace Instr

variable {ι : Type} [Operation ι] [Readable ι] {i j : Instr ι}

theorem tight_mnemonic (i : Instr ι) : Tight i.mnemonic := by
  by_cases hown : ∃ op, i = .own op
  · obtain ⟨op, rfl⟩ := hown
    exact Readable.tight op
  · have hmem := mem_commonMnemonics (not_exists.1 hown)
    have hall : ∀ t ∈ commonMnemonics, Tight t := by decide
    exact hall _ hmem

theorem tight_operands (hi : i.Legible) : ∀ t ∈ i.operands, Tight t := by
  cases i with
  | own op => exact Readable.operands op hi.references
  | loadc c => cases c with
    | int value => exact List.forall_mem_singleton.2 (tight_repr value)
    | addr l => exact List.forall_mem_singleton.2 (hi.references l rfl).tight
  | label l => exact List.forall_mem_singleton.2 (hi.defines l rfl).tight
  | jump l | jumpz l => exact List.forall_mem_singleton.2 (hi.references l rfl).tight
  | _ => exact List.forall_mem_nil _

/-- instructions can be told by their mnemonics and their operands -/
theorem inj (hi : i.Legible) (hj : j.Legible) (hm : i.mnemonic = j.mnemonic) (hops : i.operands = j.operands) :
    i = j := by
  by_cases hown : ∃ op, i = .own op
  · obtain ⟨op, rfl⟩ := hown
    by_cases hown' : ∃ op', j = .own op'
    · obtain ⟨op', rfl⟩ := hown'
      rw [Readable.inj op op' hm hops]
    · have hmem := mem_commonMnemonics (not_exists.1 hown')
      rw [← hm] at hmem
      exact absurd hmem (Readable.apart op)
  · by_cases hown' : ∃ op', j = .own op'
    · obtain ⟨op', rfl⟩ := hown'
      have hmem := mem_commonMnemonics (not_exists.1 hown)
      rw [hm] at hmem
      exact absurd hmem (Readable.apart op')
    · exact common_inj hi hj (not_exists.1 hown) (not_exists.1 hown') hm hops

omit [Readable ι] in
/-- the text of a line: a label at the margin, or anything else behind blanks -/
theorem line_text (i : Instr ι) : (∃ l, i = .label l ∧ i.line.text = l.text ++ ":") ∨
    i.defines = none ∧ i.line.text = Line.body i.mnemonic i.operands := by
  cases hdefines : i.defines with
  | some l => exact .inl ⟨l, defines_iff.1 hdefines, by rw [line, hdefines]; rfl⟩
  | none => exact .inr ⟨rfl, by rw [line, hdefines]; rfl⟩

/-- **Instructions.** An instruction with legible labels can be told from its line. -/
theorem line_inj (hi : i.Legible) (hj : j.Legible) (h : i.line.text = j.line.text) : i = j := by
  have hlabel {l : Label} (hl : l.Legible) : (l.text ++ ":").toList.head? ≠ some ' ' := by
    rw [String.toList_append]
    exact hl.tight.head?_ne _
  have hbody (m : String) (ops : List String) : (Line.body m ops).toList.head? = some ' ' := by
    obtain ⟨more, -, htext⟩ := Line.toList_body m ops
    rw [htext]
    rfl
  rcases line_text i with ⟨l, rfl, htext⟩ | ⟨-, htext⟩
  · rcases line_text j with ⟨l', rfl, htext'⟩ | ⟨-, htext'⟩
    · rw [htext, htext'] at h
      rw [Label.colon_inj h]
    · rw [htext, htext'] at h
      exact absurd (h ▸ hbody _ _) (hlabel (hi.defines l rfl))
  · rcases line_text j with ⟨l', rfl, htext'⟩ | ⟨-, htext'⟩
    · rw [htext, htext'] at h
      exact absurd (h ▸ hbody _ _) (hlabel (hj.defines l' rfl))
    · rw [htext, htext'] at h
      obtain ⟨hm, hops⟩ := Line.body_inj (tight_mnemonic i) (tight_mnemonic j) (tight_operands hi) (tight_operands hj) h
      exact inj hi hj hm hops

/-- the line of an instruction is one line, and not empty -/
theorem line_proper (hi : i.Legible) : i.line.text ≠ "" ∧ '\n' ∉ i.line.text.toList := by
  rcases line_text i with ⟨l, rfl, htext⟩ | ⟨-, htext⟩
  · have hl := (hi.defines l rfl).tight
    rw [htext]
    refine ⟨fun hempty => ?_, ?_⟩
    · have hlist := congrArg String.toList hempty
      simp at hlist
    · simp [hl.feed]
  · obtain ⟨more, -, hlist⟩ := Line.toList_body i.mnemonic i.operands
    refine ⟨fun hempty => ?_, ?_⟩
    · rw [← htext, hempty] at hlist
      simp [Line.tabWidth] at hlist
    · rw [htext]
      exact Line.feed_notMem_body (tight_mnemonic i) (tight_operands hi)

end Instr

/-! ## The operations of the machines -/

instance : Readable Stack.Op where
  tight op := by cases op <;> simp only [Operation.mnemonic] <;> decide
  operands op h := by cases op <;> simp [Operation.operands]
  apart op := by cases op <;> simp only [Operation.mnemonic] <;> decide
  inj op op' hm hops := by cases op <;> cases op' <;> simp_all [Operation.mnemonic, Operation.operands]

instance : Readable Closure.Op where
  tight op := by cases op <;> simp only [Operation.mnemonic] <;> decide
  operands op h := by cases op <;> simp_all [Operation.operands, Operation.reference, Label.Legible.tight]
  apart op := by cases op <;> simp only [Operation.mnemonic] <;> decide
  inj op op' hm hops := by cases op <;> cases op' <;> simp_all [Operation.mnemonic, Operation.operands]

theorem Vector.Tag.text_inj {t t' : Vector.Tag} : t.text = t'.text ↔ t = t' := by
  cases t <;> cases t' <;> decide

theorem Vector.Tag.tight (t : Vector.Tag) : Tight t.text := by
  cases t <;> decide

instance : Readable Vector.Op where
  tight op := by cases op <;> simp only [Operation.mnemonic] <;> decide
  operands op h := by
    cases op <;> simp_all [Operation.operands, Operation.reference, Label.Legible.tight, Vector.Tag.tight]
  apart op := by cases op <;> simp only [Operation.mnemonic] <;> decide
  inj op op' hm hops := by
    cases op <;> cases op' <;> simp_all [Operation.mnemonic, Operation.operands, Vector.Tag.text_inj]

/-- this holds for every machine -/
instance readable (m : Machine) : Readable m.Op :=
  match m with
  | .stack => inferInstanceAs (Readable Stack.Op)
  | .closure => inferInstanceAs (Readable Closure.Op)
  | .vector => inferInstanceAs (Readable Vector.Op)

end ThreeMachines
