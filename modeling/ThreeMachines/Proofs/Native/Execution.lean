/-
Executing native code on pictures.

`Layout.Leads L env p asm Q` says that the code, run on any processor that looks like the picture, has an outcome with the
property `Q`. There is one lemma for each kind of line: it takes the line off and changes the picture, so that a proof
about a piece of native code reads like the code. `Layout.Leaves` is the outcome that control leaves for an address.
-/
import ThreeMachines.Proofs.Native.Layout

namespace ThreeMachines.Native

namespace Layout

variable {L : Layout} {env : Surroundings} {p p' : Picture} {c : Cpu} {regs : Reg → Word} {flags : Option Flags}
  {stack heap : Array Word} {taken : Nat} {w : Word} {r : Reg} {x : Place} {src : Source} {m : Mem} {i : Instr}
  {note : Option String} {rest : Asm} {Q : Outcome → Prop}

/-- a run of the code from the picture has an outcome with the property -/
def Leads (L : Layout) (env : Surroundings) (p : Picture) (asm : Asm) (Q : Outcome → Prop) : Prop :=
  ∀ c, L.Shows p c → Q (run env asm c)

/-- control is at an address, and the processor looks like a picture with a property -/
def Leaves (L : Layout) (a : Word) (P : Picture → Prop) (o : Outcome) : Prop :=
  ∃ c p, o = .jump a c ∧ L.Shows p c ∧ P p

/-- a line after which the next one comes -/
theorem leads_next (h : ∀ c, L.Shows p c → ∃ c', (∀ back, i.exec env back c = .next c') ∧ L.Shows p' c')
    (hrest : L.Leads env p' rest Q) : L.Leads env p (.instr i note :: rest) Q := by
  intro c hc
  obtain ⟨c', hexec, hc'⟩ := h c hc
  rw [run_next hexec]
  exact hrest c' hc'

/-- a line after which control is elsewhere -/
theorem leads_away {a : Word} {P : Picture → Prop}
    (h : ∀ c, L.Shows p c → ∃ c', (∀ back, i.exec env back c = .jump a c') ∧ L.Shows p' c') (hP : P p') :
    L.Leads env p (.instr i note :: rest) (L.Leaves a P) := by
  intro c hc
  obtain ⟨c', hexec, hc'⟩ := h c hc
  exact ⟨c', p', run_jump hexec, hc', hP⟩

theorem leads_nil {P : Picture → Prop} (hP : P p) : L.Leads env p [] (L.Leaves env.next P) :=
  fun c hc => ⟨c, p, run_nil, hc, hP⟩

/-- a line that traps -/
theorem leads_stop (h : ∀ c, L.Shows p c → ∀ back, i.exec env back c = .trap) :
    L.Leads env p (.instr i note :: rest) (· = .trap) := fun c hc => by rw [run, h c hc]

/-! ## Operands -/

/-- the address of a memory operand -/
def locate (L : Layout) (p : Picture) (m : Mem) : Word := L.reg p m.base + word m.offset

theorem Shows.address_eq (h : L.Shows p c) (m : Mem) : m.address c = L.locate p m := by
  rw [Mem.address, h.regs, locate]

theorem Shows.read (h : L.Shows p c) (hm : L.locate p m = L.address x) (hx : p.at x = some w) :
    c.mem.read (m.address c) = some w := by
  rw [h.address_eq, hm]
  exact h.words x w hx

/-- the word `k` places under the top -/
theorem locate_onStack {i k : Nat} (hi : i + k + 1 = stack.size) :
    L.locate ⟨regs, flags, stack, heap, taken⟩ (Snippet.onStack (8 * k)) = L.address (.slot i) :=
  (under_add _ _).trans (congrArg L.under (by dsimp only [Snippet.onStack]; omega))

/-- an element of a block -/
theorem locate_cell {q : Int} {j : Nat} {o : Int} (hr : L.reg p r = word q) (hj : q + o = Heap.address j) :
    L.locate p ⟨r, o⟩ = L.address (.cell j) := by
  rw [locate, hr, ← word_add, hj, address]

/-- a word at some distance from a place of the stack -/
theorem locate_under {y o : Int} {j : Nat} (hr : L.reg p r = L.under y) (hj : y - o = 8 * (j + 1)) :
    L.locate p ⟨r, o⟩ = L.address (.slot j) := by
  rw [locate, hr, under_add, hj, address]

/-- what an operand is worth in a picture -/
def Gives (L : Layout) (p : Picture) (src : Source) (w : Word) : Prop := ∀ c, L.Shows p c → src.value c = some w

theorem gives_reg (h : L.reg p r = w) : L.Gives p (.reg r) w := fun c hc => by rw [Source.value, hc.regs, h]

theorem gives_mem (hm : L.locate p m = L.address x) (hx : p.at x = some w) : L.Gives p (.mem m) w :=
  fun _ hc => hc.read hm hx

theorem gives_imm (n : Int) : L.Gives p (.imm n) (word n) := fun _ _ => rfl

theorem gives_char (ch : Char) : L.Gives p (.char ch) (word ch.toNat) := fun _ _ => rfl

/-! ## Registers -/

theorem leads_mov (hr : r ≠ .rsp) (hw : L.Gives ⟨regs, flags, stack, heap, taken⟩ src w)
    (hrest : L.Leads env ⟨setReg regs r w, flags, stack, heap, taken⟩ rest Q) :
    L.Leads env ⟨regs, flags, stack, heap, taken⟩ (.instr (.mov r src) note :: rest) Q :=
  leads_next (fun c hc => ⟨c.set r w, fun _ => by rw [Instr.exec, hw c hc, Outcome.given], hc.set hr w⟩) hrest

theorem leads_movInt (hr : r ≠ .rsp) {n : Int}
    (hrest : L.Leads env ⟨setReg regs r (word n), flags, stack, heap, taken⟩ rest Q) :
    L.Leads env ⟨regs, flags, stack, heap, taken⟩ (.instr (.movConst r (.int n)) note :: rest) Q :=
  leads_next (fun c hc => ⟨c.set r (word n), fun _ => rfl, hc.set hr _⟩) hrest

theorem leads_movAddr (hr : r ≠ .rsp) {l : Label} (hl : env.labels l = some w)
    (hrest : L.Leads env ⟨setReg regs r w, flags, stack, heap, taken⟩ rest Q) :
    L.Leads env ⟨regs, flags, stack, heap, taken⟩ (.instr (.movConst r (.addr l)) note :: rest) Q :=
  leads_next (fun c hc => ⟨c.set r w, fun _ => by rw [Instr.exec, hl, Outcome.given], hc.set hr w⟩) hrest

theorem leads_leaLabel (hr : r ≠ .rsp) {l : Label} (hl : env.labels l = some w)
    (hrest : L.Leads env ⟨setReg regs r w, flags, stack, heap, taken⟩ rest Q) :
    L.Leads env ⟨regs, flags, stack, heap, taken⟩ (.instr (.leaLabel r l) note :: rest) Q :=
  leads_next (fun c hc => ⟨c.set r w, fun _ => by rw [Instr.exec, hl, Outcome.given], hc.set hr w⟩) hrest

theorem leads_arith (hr : r ≠ .rsp) {op : Arith} (hw : L.Gives ⟨regs, flags, stack, heap, taken⟩ src w)
    (hrest : L.Leads env ⟨setReg regs r (op.eval (regs r) w), none, stack, heap, taken⟩ rest Q) :
    L.Leads env ⟨regs, flags, stack, heap, taken⟩ (.instr (.arith op r src) note :: rest) Q :=
  leads_next (fun c hc => ⟨(c.set r (op.eval (regs r) w)).flagged none, fun _ => by
    rw [Instr.exec, hw c hc, Outcome.given, hc.reg_of_ne hr], (hc.set hr _).flagged _⟩) hrest

theorem leads_movzx (hr : r ≠ .rsp) {b : ByteReg}
    (hrest : L.Leads env ⟨setReg regs r (((regs b.full).setWidth 8).setWidth 64), flags, stack, heap, taken⟩ rest Q) :
    L.Leads env ⟨regs, flags, stack, heap, taken⟩ (.instr (.movzx r b) note :: rest) Q :=
  leads_next (fun c hc => ⟨_, fun _ => rfl, by
    rw [Cpu.byte, hc.reg_of_ne b.full_ne_rsp]
    exact hc.set hr _⟩) hrest

theorem leads_set {cond : Cond} {b : ByteReg} {f : Flags}
    (hrest : L.Leads env ⟨setReg regs b.full (withByte (regs b.full) (bit (cond.holds f))), some f, stack,
      heap, taken⟩ rest Q) :
    L.Leads env ⟨regs, some f, stack, heap, taken⟩ (.instr (.set cond b) note :: rest) Q :=
  leads_next (fun c hc => ⟨c.setByte b (bit (cond.holds f)), fun _ => by rw [Instr.exec, hc.flags, bit], by
    rw [Cpu.setByte, hc.reg_of_ne b.full_ne_rsp]
    exact hc.set b.full_ne_rsp _⟩) hrest

theorem leads_byteArith {op : ByteArith} {b b' : ByteReg}
    (hrest : L.Leads env ⟨setReg regs b.full (withByte (regs b.full)
      (op.eval ((regs b.full).setWidth 8) ((regs b'.full).setWidth 8))), none, stack, heap, taken⟩ rest Q) :
    L.Leads env ⟨regs, flags, stack, heap, taken⟩ (.instr (.byteArith op b b') note :: rest) Q :=
  leads_next (fun c hc => ⟨_, fun _ => rfl, by
    rw [Cpu.setByte, Cpu.byte, Cpu.byte, hc.reg_of_ne b.full_ne_rsp, hc.reg_of_ne b'.full_ne_rsp]
    exact (hc.set b.full_ne_rsp _).flagged none⟩) hrest

theorem leads_test {r₁ r₂ : Reg} (h₁ : r₁ ≠ .rsp) (h₂ : r₂ ≠ .rsp)
    (hrest : L.Leads env ⟨regs, some (.logical (regs r₁ &&& regs r₂)), stack, heap, taken⟩ rest Q) :
    L.Leads env ⟨regs, flags, stack, heap, taken⟩ (.instr (.test r₁ r₂) note :: rest) Q :=
  leads_next (fun c hc => ⟨_, fun _ => rfl, by
    rw [hc.reg_of_ne h₁, hc.reg_of_ne h₂]
    exact hc.flagged _⟩) hrest

theorem leads_cmp {r₁ r₂ : Reg} (h₁ : r₁ ≠ .rsp) (h₂ : r₂ ≠ .rsp)
    (hrest : L.Leads env ⟨regs, some (.difference (regs r₁) (regs r₂)), stack, heap, taken⟩ rest Q) :
    L.Leads env ⟨regs, flags, stack, heap, taken⟩ (.instr (.cmp r₁ r₂) note :: rest) Q :=
  leads_next (fun c hc => ⟨_, fun _ => rfl, by
    rw [hc.reg_of_ne h₁, hc.reg_of_ne h₂]
    exact hc.flagged _⟩) hrest

theorem leads_cmpChar {ch : Char} (hm : L.locate ⟨regs, flags, stack, heap, taken⟩ m = L.address x)
    (hx : (⟨regs, flags, stack, heap, taken⟩ : Picture).at x = some w)
    (hrest : L.Leads env ⟨regs, some (.difference w (word ch.toNat)), stack, heap, taken⟩ rest Q) :
    L.Leads env ⟨regs, flags, stack, heap, taken⟩ (.instr (.cmpChar m ch) note :: rest) Q :=
  leads_next (fun c hc => ⟨c.flagged (some (.difference w (word ch.toNat))), fun _ => by
    rw [Instr.exec, hc.read hm hx, Outcome.given], hc.flagged _⟩) hrest

theorem leads_cmov {cond : Cond} {f : Flags} {r' : Reg} (hr : r ≠ .rsp) (hr' : r' ≠ .rsp)
    (hrest : L.Leads env ⟨if cond.holds f then setReg regs r (regs r') else regs, some f, stack, heap, taken⟩ rest Q) :
    L.Leads env ⟨regs, some f, stack, heap, taken⟩ (.instr (.cmov cond r r') note :: rest) Q :=
  leads_next (fun c hc => ⟨if cond.holds f then c.set r (c.regs r') else c, fun _ => by rw [Instr.exec, hc.flags], by
    split
    · rw [hc.reg_of_ne hr']
      exact hc.set hr _
    · exact hc⟩) hrest

/-! ## The stack -/

theorem leads_pop (hr : r ≠ .rsp) (hrest : L.Leads env ⟨setReg regs r w, flags, stack, heap, taken⟩ rest Q) :
    L.Leads env ⟨regs, flags, stack.push w, heap, taken⟩ (.instr (.pop r) note :: rest) Q :=
  leads_next (fun c hc => ⟨c.popped r w, fun _ => by
    rw [Instr.exec, hc.read_top, Outcome.given], hc.pop hr⟩) hrest

theorem Shows.pushing (h : L.Shows ⟨regs, flags, stack, heap, taken⟩ c) (hroom : stack.size < L.slots) (w : Word) :
    c.pushing w = .next (c.pushed w) := by
  rw [Cpu.pushing, h.rsp_sub_eight, if_pos (h.mapped _ hroom)]

theorem leads_push (hw : L.Gives ⟨regs, flags, stack, heap, taken⟩ src w) (hroom : stack.size < L.slots)
    (hrest : L.Leads env ⟨regs, flags, stack.push w, heap, taken⟩ rest Q) :
    L.Leads env ⟨regs, flags, stack, heap, taken⟩ (.instr (.push src) note :: rest) Q :=
  leads_next (fun c hc => ⟨c.pushed w, fun _ => by rw [Instr.exec, hw c hc, Outcome.given, hc.pushing hroom],
    hc.push hroom w⟩) hrest

/-- rsp moves up -/
theorem leads_movTop {n : Nat} (hn : n ≤ stack.size) (hw : L.Gives ⟨regs, flags, stack, heap, taken⟩ src (L.top n))
    (hrest : L.Leads env ⟨regs, flags, stack.take n, heap, taken⟩ rest Q) :
    L.Leads env ⟨regs, flags, stack, heap, taken⟩ (.instr (.mov .rsp src) note :: rest) Q :=
  leads_next (fun c hc => ⟨c.set .rsp (L.top n), fun _ => by rw [Instr.exec, hw c hc, Outcome.given],
    hc.shrink hn⟩) hrest

/-- words are dropped -/
theorem leads_drop {n k : Nat} (hn : n + k = stack.size)
    (hrest : L.Leads env ⟨regs, none, stack.take n, heap, taken⟩ rest Q) :
    L.Leads env ⟨regs, flags, stack, heap, taken⟩ (.instr (.arith .add .rsp (.imm (8 * k))) note :: rest) Q :=
  leads_next (fun c hc => ⟨(c.set .rsp (L.top n)).flagged none, fun _ => by
    have htop : c.regs .rsp + word (8 * k) = L.top n := by
      rw [hc.rsp]
      exact (under_add _ _).trans (congrArg L.under (by dsimp only; omega))
    rw [Instr.exec, Source.value, Outcome.given, Arith.eval, htop], (hc.shrink (by omega)).flagged none⟩) hrest

/-- rsp moves up over two words that are still read -/
theorem leads_leave {n : Nat} {m m₁ m₂ : Mem} {r₁ r₂ : Reg} {x y : Place} {v w : Word} {n₁ n₂ : Option String}
    (hn : n ≤ stack.size) (hm : L.locate ⟨regs, flags, stack, heap, taken⟩ m = L.top n)
    (hm₁ : L.locate ⟨regs, flags, stack, heap, taken⟩ m₁ = L.address x)
    (hm₂ : L.locate ⟨regs, flags, stack, heap, taken⟩ m₂ = L.address y)
    (hx : (⟨regs, flags, stack, heap, taken⟩ : Picture).at x = some v)
    (hy : (⟨regs, flags, stack, heap, taken⟩ : Picture).at y = some w) (hr₁ : r₁ ≠ .rsp) (hr₂ : r₂ ≠ .rsp)
    (hb₁ : m₁.base ≠ .rsp) (hb₂ : m₂.base ≠ .rsp) (hb : m₂.base ≠ r₁)
    (hrest : L.Leads env ⟨setReg (setReg regs r₁ v) r₂ w, flags, stack.take n, heap, taken⟩ rest Q) :
    L.Leads env ⟨regs, flags, stack, heap, taken⟩
      (.instr (.lea .rsp m) note :: .instr (.mov r₁ (.mem m₁)) n₁ :: .instr (.mov r₂ (.mem m₂)) n₂ :: rest) Q := by
  intro c hc
  have hlea : ∀ back, (Instr.lea .rsp m).exec env back c = .next (c.set .rsp (L.top n)) := fun _ => by
    rw [Instr.exec, hc.address_eq, hm]
  have hmov₁ : ∀ back, (Instr.mov r₁ (.mem m₁)).exec env back (c.set .rsp (L.top n)) =
      .next ((c.set .rsp (L.top n)).set r₁ v) := fun _ => by
    rw [Instr.exec, Source.value, Mem.address, Cpu.set_other hb₁, Cpu.set_mem, ← Mem.address, hc.read hm₁ hx,
      Outcome.given]
  have hmov₂ : ∀ back, (Instr.mov r₂ (.mem m₂)).exec env back ((c.set .rsp (L.top n)).set r₁ v) =
      .next (((c.set .rsp (L.top n)).set r₁ v).set r₂ w) := fun _ => by
    rw [Instr.exec, Source.value, Mem.address, Cpu.set_other hb, Cpu.set_other hb₂, Cpu.set_mem, Cpu.set_mem,
      ← Mem.address, hc.read hm₂ hy, Outcome.given]
  rw [run_next hlea, run_next hmov₁, run_next hmov₂]
  exact hrest _ (((hc.shrink hn).set hr₁ v).set hr₂ w)

/-- rsp becomes the difference of two registers -/
theorem leads_subTop {n : Nat} {r' : Reg} {note' : Option String} (hn : n ≤ stack.size) (hr : r ≠ .rsp) (hr' : r' ≠ .rsp)
    (hdiff : regs r - regs r' = L.top n)
    (hrest : L.Leads env ⟨regs, none, stack.take n, heap, taken⟩ rest Q) :
    L.Leads env ⟨regs, flags, stack, heap, taken⟩
      (.instr (.mov .rsp (.reg r)) note :: .instr (.arith .sub .rsp (.reg r')) note' :: rest) Q := by
  intro c hc
  have hmov : ∀ back, (Instr.mov .rsp (.reg r)).exec env back c = .next (c.set .rsp (c.regs r)) := fun _ => rfl
  have hsub : ∀ back, (Instr.arith .sub .rsp (.reg r')).exec env back (c.set .rsp (c.regs r)) =
      .next ((c.set .rsp (L.top n)).flagged none) := by
    intro back
    rw [Instr.exec, Source.value, Outcome.given, Cpu.set_self, Cpu.set_other hr', Arith.eval, hc.reg_of_ne hr,
      hc.reg_of_ne hr', hdiff, Cpu.set_set]
  rw [run_next hmov, run_next hsub]
  exact hrest _ ((hc.shrink hn).flagged none)

/-! ## Memory -/

theorem Shows.writing (h : L.Shows p c) (hx : (p.at x).isSome) (w : Word) :
    c.writing (L.address x) w = .next (c.write (L.address x) w) := by
  obtain ⟨v, hv⟩ := Option.isSome_iff_exists.1 hx
  have hmapped : (c.mem.read (L.address x)).isSome := by rw [h.words x v hv]; rfl
  rw [Cpu.writing, if_pos hmapped]

theorem leads_store (hm : L.locate p m = L.address x) (hx : (p.at x).isSome) (hw : L.Gives p src w)
    (hrest : L.Leads env (p.put w x) rest Q) : L.Leads env p (.instr (.store m src) note :: rest) Q :=
  leads_next (fun c hc => ⟨c.write (L.address x) w, fun _ => by
    rw [Instr.exec, hw c hc, Outcome.given, hc.address_eq, hm, hc.writing hx], hc.write hx w⟩) hrest

/-- an operation on a word of the stack or the heap -/
theorem leads_update {f : Word → Word}
    (hexec : ∀ c back, i.exec env back c =
      .given (c.mem.read (m.address c)) fun w => (c.flagged none).writing (m.address c) (f w))
    (hm : L.locate ⟨regs, flags, stack, heap, taken⟩ m = L.address x)
    (hx : (⟨regs, none, stack, heap, taken⟩ : Picture).at x = some w)
    (hrest : L.Leads env ((⟨regs, none, stack, heap, taken⟩ : Picture).put (f w) x) rest Q) :
    L.Leads env ⟨regs, flags, stack, heap, taken⟩ (.instr i note :: rest) Q :=
  leads_next (fun c hc => by
    have hsome : ((⟨regs, none, stack, heap, taken⟩ : Picture).at x).isSome := by rw [hx]; rfl
    have hread : c.mem.read (m.address c) = some w := hc.read hm (by cases x <;> exact hx)
    refine ⟨(c.flagged none).write (L.address x) (f w), fun back => ?_, (hc.flagged none).write hsome _⟩
    rw [hexec, hread, Outcome.given, hc.address_eq, hm, (hc.flagged none).writing hsome]) hrest

theorem leads_xchg (hr : r ≠ .rsp) (hm : L.locate ⟨regs, flags, stack, heap, taken⟩ m = L.address x)
    (hx : (⟨regs, flags, stack, heap, taken⟩ : Picture).at x = some w)
    (hrest : L.Leads env ((⟨setReg regs r w, flags, stack, heap, taken⟩ : Picture).put (regs r) x) rest Q) :
    L.Leads env ⟨regs, flags, stack, heap, taken⟩ (.instr (.xchg r m) note :: rest) Q :=
  leads_next (fun c hc => by
    have hset := hc.set hr w
    have hsome : ((⟨setReg regs r w, flags, stack, heap, taken⟩ : Picture).at x).isSome := by
      cases x <;> exact Option.isSome_of_eq_some hx
    refine ⟨(c.set r w).write (L.address x) (regs r), fun _ => ?_, hset.write hsome _⟩
    rw [Instr.exec, hc.read hm hx, Outcome.given, hc.reg_of_ne hr, hc.address_eq, hm, hset.writing hsome]) hrest

/-! ## Jumps -/

section
variable {P : Picture → Prop} {a : Word} {l : Label}

theorem leads_jmp (hl : env.labels l = some a) (hP : P p) :
    L.Leads env p (.instr (.jmp l) note :: rest) (L.Leaves a P) :=
  leads_away (fun c hc => ⟨c, fun _ => by rw [Instr.exec, hl, Outcome.given], hc⟩) hP

theorem leads_jmpReg (ha : L.reg p r = a) (hP : P p) :
    L.Leads env p (.instr (.jmpReg r) note :: rest) (L.Leaves a P) :=
  leads_away (fun c hc => ⟨c, fun _ => by rw [Instr.exec, hc.regs, ha], hc⟩) hP

theorem leads_jmpMem (hm : L.locate p m = L.address x) (hx : p.at x = some a) (hP : P p) :
    L.Leads env p (.instr (.jmpMem m) note :: rest) (L.Leaves a P) :=
  leads_away (fun c hc => ⟨c, fun _ => by rw [Instr.exec, hc.read hm hx, Outcome.given], hc⟩) hP

theorem leads_jcc {cond : Cond} {f : Flags} (hl : cond.holds f = true → env.labels l = some a)
    (hP : cond.holds f = true → P ⟨regs, some f, stack, heap, taken⟩)
    (hrest : cond.holds f = false → L.Leads env ⟨regs, some f, stack, heap, taken⟩ rest (L.Leaves a P)) :
    L.Leads env ⟨regs, some f, stack, heap, taken⟩ (.instr (.jcc cond l) note :: rest) (L.Leaves a P) := by
  cases hcond : cond.holds f with
  | true =>
    refine leads_away (fun c hc => ⟨c, fun _ => ?_, hc⟩) (hP hcond)
    rw [Instr.exec, hc.flags]
    simp only [hcond, if_true, hl hcond, Outcome.given]
  | false =>
    refine leads_next (fun c hc => ⟨c, fun _ => ?_, hc⟩) (hrest hcond)
    rw [Instr.exec, hc.flags]
    simp [hcond]

/-- the return address lies under the line -/
theorem leads_callReg (hr : r ≠ .rsp) (ha : regs r = a) (hroom : stack.size < L.slots)
    (hP : P ⟨regs, flags, stack.push env.next, heap, taken⟩) :
    L.Leads env ⟨regs, flags, stack, heap, taken⟩ [.instr (.callReg r) note] (L.Leaves a P) := by
  intro c hc
  have hreg : c.regs r = a := (hc.reg_of_ne hr).trans ha
  refine ⟨c.pushed env.next, _, ?_, hc.push hroom _, hP⟩
  rw [run]
  simp only [Instr.exec, List.isEmpty_nil, if_true, Outcome.given, hc.pushing hroom, hreg]

theorem leads_ret (hP : P ⟨regs, flags, stack, heap, taken⟩) :
    L.Leads env ⟨regs, flags, stack.push a, heap, taken⟩ (.instr .ret note :: rest) (L.Leaves a P) :=
  leads_away (fun c hc => ⟨c.set .rsp (c.regs .rsp + 8), fun _ => by rw [Instr.exec, hc.read_top, Outcome.given],
    hc.drop_top⟩) hP

end

end Layout

/-! ## Traps -/

theorem exec_ne_trap {env : Surroundings} {back : Option Word} {c : Cpu} {i : Instr} (hi : ∀ r, i ≠ .idiv r) :
    i.exec env back c ≠ .trap := by
  have hgiven (w : Option Word) {f : Word → Outcome} (hf : ∀ w, f w ≠ .trap) : Outcome.given w f ≠ .trap := by
    cases w with
    | none => exact nofun
    | some w => exact hf w
  have hwriting (c : Cpu) (a w : Word) : c.writing a w ≠ .trap := by
    unfold Cpu.writing
    split <;> exact nofun
  have hpushing (c : Cpu) (w : Word) : c.pushing w ≠ .trap := by
    unfold Cpu.pushing
    split <;> exact nofun
  cases i with
  | idiv r => exact absurd rfl (hi r)
  | mov dst src | arith op dst src => exact hgiven _ fun _ => nofun
  | movConst dst value =>
    cases value with
    | int n => exact nofun
    | addr l => exact hgiven _ fun _ => nofun
  | movDatum dst name | leaLabel dst l | pop dst | cmpChar lhs x | jmp l | jmpMem m | ret => exact hgiven _ fun _ => nofun
  | store dst src => exact hgiven _ fun _ => hwriting _ _ _
  | dec dst | neg dst | xchg r m => exact hgiven _ fun _ => hwriting _ _ _
  | push src => exact hgiven _ fun _ => hpushing _ _
  | pushZero => exact hpushing _ _
  | movzx dst src | lea dst src | byteArith op dst src | test lhs rhs | cmp lhs rhs | cqo | clear | jmpReg r => exact nofun
  | set cond dst | cmov cond dst src =>
    rw [Instr.exec]
    split <;> simp
  | jcc cond l =>
    rw [Instr.exec]
    split
    · split
      · exact hgiven _ fun _ => by simp
      · simp
    · simp
  | callReg r =>
    refine hgiven _ fun a => ?_
    have := hpushing c a
    split <;> simp_all
  | callImport symbol =>
    rw [Instr.exec]
    split <;> simp

/-- code without `idiv` does not trap -/
theorem run_ne_trap {env : Surroundings} {asm : Asm} (h : ∀ r note, .instr (.idiv r) note ∉ asm) (c : Cpu) :
    run env asm c ≠ .trap := by
  induction asm generalizing c with
  | nil => exact nofun
  | cons item rest ih =>
    have hrest : ∀ r note, .instr (.idiv r) note ∉ rest := fun r note hmem => h r note (List.mem_cons_of_mem _ hmem)
    cases item with
    | label l => exact ih hrest c
    | instr i note =>
      have hi : ∀ r, i ≠ .idiv r := fun r hir => h r note (by rw [hir]; exact List.mem_cons_self)
      rw [run]
      split
      · exact ih hrest _
      · exact exec_ne_trap hi

end ThreeMachines.Native
