/-
The code that the machines share.

Registers that a machine keeps its own things in stay as they are (`Keeps`); others may hold anything afterwards, so the
lemmas speak of all registers that agree with the old ones on the kept ones.

- `Layout.leads_common`: an instruction that all machines share does to the native stack what it does to the operand
  stack.
- `Layout.leads_alloc`, `leads_mkvec`, `leads_mkfunval`, `leads_copyPair`: blocks on the heap.
-/
import ThreeMachines.Native.Unit
import ThreeMachines.Proofs.Native.Execution
import ThreeMachines.Proofs.Success

namespace ThreeMachines.Native

/-- the registers in which the machines keep their own things are as before -/
structure Keeps (regs regs' : Reg → Word) : Prop where
  rbx : regs' .rbx = regs .rbx
  rbp : regs' .rbp = regs .rbp
  r12 : regs' .r12 = regs .r12
  r13 : regs' .r13 = regs .r13
  r14 : regs' .r14 = regs .r14

theorem Keeps.refl (regs : Reg → Word) : Keeps regs regs := ⟨rfl, rfl, rfl, rfl, rfl⟩

theorem Keeps.trans {regs regs' regs'' : Reg → Word} (h : Keeps regs regs') (h' : Keeps regs' regs'') :
    Keeps regs regs'' :=
  ⟨h'.rbx.trans h.rbx, h'.rbp.trans h.rbp, h'.r12.trans h.r12, h'.r13.trans h.r13, h'.r14.trans h.r14⟩

/-- another word in a register that no machine keeps anything in -/
theorem Keeps.set {regs regs' : Reg → Word} {r : Reg} (h : Keeps regs regs')
    (hr : r ∉ [Reg.rbx, .rbp, .r12, .r13, .r14]) (w : Word) : Keeps regs (setReg regs' r w) := by
  simp only [List.mem_cons, List.not_mem_nil, or_false, not_or] at hr
  obtain ⟨hrbx, hrbp, hr12, hr13, hr14⟩ := hr
  exact ⟨(setReg_other (Ne.symm hrbx)).trans h.rbx, (setReg_other (Ne.symm hrbp)).trans h.rbp,
    (setReg_other (Ne.symm hr12)).trans h.r12, (setReg_other (Ne.symm hr13)).trans h.r13,
    (setReg_other (Ne.symm hr14)).trans h.r14⟩

theorem setReg_setReg (regs : Reg → Word) (r : Reg) (v w : Word) : setReg (setReg regs r v) r w = setReg regs r w := by
  funext r'
  by_cases h : r' = r
  · rw [h, setReg_self, setReg_self]
  · rw [setReg_other h, setReg_other h, setReg_other h]

namespace Layout

variable {L : Layout} {env : Surroundings} {regs : Reg → Word} {flags : Option Flags} {stack heap : Array Word}
  {taken : Nat} {rest : Asm} {Q : Outcome → Prop} {v w n : Int}

/-! ## Operators -/

/-- a condition becomes a word -/
theorem leads_truth {cond : Cond} {f : Flags} {note note' : Option String}
    (hrest : L.Leads env ⟨setReg regs .rax (word (truth (cond.holds f))), some f, stack, heap, taken⟩ rest Q) :
    L.Leads env ⟨regs, some f, stack, heap, taken⟩ (.instr (.set cond .al) note :: .instr (.movzx .rax .al) note' :: rest)
      Q := by
  refine leads_set (leads_movzx (by decide) ?_)
  simpa only [ByteReg.full, setReg_self, setWidth_withByte, setWidth_bit, setReg_setReg] using hrest

theorem leads_compare (cond : Cond) (hax : regs .rax = word v)
    (hcx : regs .rcx = word w)
    (hrest : ∀ flags, L.Leads env
      ⟨setReg regs .rax (word (truth (cond.holds (.difference (word v) (word w))))), flags, stack, heap, taken⟩ rest Q) :
    L.Leads env ⟨regs, flags, stack, heap, taken⟩
      (plain [.cmp .rax .rcx, .set cond .al, .movzx .rax .al] ++ rest) Q := by
  refine leads_cmp (by decide) (by decide) (leads_truth ?_)
  rw [hax, hcx]
  exact hrest _

theorem leads_logical {op : ByteArith} {both : Bool → Bool → Bool}
    (hop : ∀ p q, op.eval (bit p) (bit q) = bit (both p q)) (hv : isWord v) (hw : isWord w)
    (hax : regs .rax = word v) (hcx : regs .rcx = word w)
    (hrest : ∀ regs', Keeps regs regs' → regs' .rax = word (truth (both (decide (v ≠ 0)) (decide (w ≠ 0)))) →
      L.Leads env ⟨regs', none, stack, heap, taken⟩ rest Q) :
    L.Leads env ⟨regs, flags, stack, heap, taken⟩ (plain (Snippet.apply.logical op) ++ rest) Q := by
  refine leads_test (by decide) (by decide) (leads_set (leads_test (by decide) (by decide) (leads_set
    (leads_byteArith (leads_movzx (by decide) ?_)))))
  refine hrest _ ?_ ?_
  · exact ⟨rfl, rfl, rfl, rfl, rfl⟩
  · simp only [ByteReg.full, setReg_self, setReg_other (show Reg.rcx ≠ .rax by decide),
      setReg_other (show Reg.rax ≠ .rcx by decide), setWidth_withByte, hax, hcx, (holds_logical hv).2,
      (holds_logical hw).2, hop, setWidth_bit]

/-- the sign of rax goes into rdx -/
theorem leads_cqo {note : Option String}
    (hrest : L.Leads env ⟨setReg regs .rdx (if (regs .rax).msb then -1 else 0), flags, stack, heap, taken⟩ rest Q) :
    L.Leads env ⟨regs, flags, stack, heap, taken⟩ (.instr .cqo note :: rest) Q :=
  leads_next (fun c hc => ⟨_, fun _ => rfl, by
    rw [hc.reg_of_ne (r := .rax) (by decide)]
    exact hc.set (by decide) _⟩) hrest

/-- the quotient comes into rax -/
theorem leads_divide (hv : isWord v) (hw : isWord w) (hquotient : quotient v w = .ok n) (hax : regs .rax = word v)
    (hcx : regs .rcx = word w)
    (hrest : ∀ regs', Keeps regs regs' → regs' .rax = word n → L.Leads env ⟨regs', none, stack, heap, taken⟩ rest Q) :
    L.Leads env ⟨regs, flags, stack, heap, taken⟩ (plain [.cqo, .idiv .rcx] ++ rest) Q := by
  refine leads_cqo (leads_next (fun c hc => ⟨_, fun back => ?_,
    ((hc.set (r := .rax) (by decide) (word n)).set (r := .rdx) (by decide) (word (v.tmod w))).flagged none⟩)
    (hrest _ ⟨rfl, rfl, rfl, rfl, rfl⟩ rfl))
  rw [exec_idiv hv hw ((hc.reg_of_ne (by decide)).trans hax) ((hc.reg_of_ne (by decide)).trans (by rw [setReg_self, hax]))
    ((hc.reg_of_ne (by decide)).trans hcx), hquotient]

/-- without a quotient the processor traps -/
theorem leads_trap {cause : Fault} (hv : isWord v) (hw : isWord w) (hquotient : quotient v w = .error cause)
    (hax : regs .rax = word v) (hcx : regs .rcx = word w) :
    L.Leads env ⟨regs, flags, stack, heap, taken⟩ (plain [.cqo, .idiv .rcx] ++ rest) (· = .trap) := by
  refine leads_cqo (leads_stop fun c hc back => ?_)
  rw [exec_idiv hv hw ((hc.reg_of_ne (by decide)).trans hax)
    ((hc.reg_of_ne (by decide)).trans (by rw [setReg_self, hax])) ((hc.reg_of_ne (by decide)).trans hcx), hquotient]

/-- **Operators.** Code of a binary operator leaves its value in rax. -/
theorem leads_apply {op : BinaryOp} (hv : isWord v) (hw : isWord w) (hop : op.eval v w = .ok n)
    (hax : regs .rax = word v) (hcx : regs .rcx = word w)
    (hrest : ∀ regs' flags', Keeps regs regs' → regs' .rax = word n →
      L.Leads env ⟨regs', flags', stack, heap, taken⟩ rest Q) :
    L.Leads env ⟨regs, flags, stack, heap, taken⟩ (plain (Snippet.apply op) ++ rest) Q := by
  -- a comparison of words is the comparison of their integers
  have hcompare (cond : Cond) (p : Bool) (hcond : cond.holds (.difference (word v) (word w)) = p) (hn : truth p = n) :
      L.Leads env ⟨regs, flags, stack, heap, taken⟩
        (plain [.cmp .rax .rcx, .set cond .al, .movzx .rax .al] ++ rest) Q := by
    refine leads_compare cond hax hcx fun flags' => hrest _ _ ⟨rfl, rfl, rfl, rfl, rfl⟩ ?_
    rw [setReg_self, hcond, hn]
  have hdiff := holds_difference hv hw
  cases op with
  | add =>
    cases hop
    refine leads_arith (by decide) (gives_reg rfl) (hrest _ _ ⟨rfl, rfl, rfl, rfl, rfl⟩ ?_)
    rw [setReg_self, Arith.eval, word_wrap, word_add]
    exact congrArg₂ _ hax hcx
  | sub =>
    cases hop
    refine leads_arith (by decide) (gives_reg rfl) (hrest _ _ ⟨rfl, rfl, rfl, rfl, rfl⟩ ?_)
    rw [setReg_self, Arith.eval, word_wrap, word_sub]
    exact congrArg₂ _ hax hcx
  | mul =>
    cases hop
    refine leads_arith (by decide) (gives_reg rfl) (hrest _ _ ⟨rfl, rfl, rfl, rfl, rfl⟩ ?_)
    rw [setReg_self, Arith.eval, word_wrap, word_mul]
    exact congrArg₂ _ hax hcx
  | div => exact leads_divide hv hw hop hax hcx fun regs' => hrest regs' none
  | lt => exact hcompare .l _ (hdiff .l) (Except.ok.inj hop)
  | gt => exact hcompare .g _ (hdiff .g) (Except.ok.inj hop)
  | le => exact hcompare .le _ (hdiff .le) (Except.ok.inj hop)
  | ge => exact hcompare .ge _ (hdiff .ge) (Except.ok.inj hop)
  | eq => exact hcompare .e _ (hdiff .e) (Except.ok.inj hop)
  | ne => exact hcompare .ne _ (hdiff .ne) (Except.ok.inj hop)
  | and =>
    refine leads_logical and_bit hv hw hax hcx fun regs' hkeeps hrax => hrest regs' none hkeeps ?_
    rw [hrax, ← Except.ok.inj hop]
    simp
  | or =>
    refine leads_logical or_bit hv hw hax hcx fun regs' hkeeps hrax => hrest regs' none hkeeps ?_
    rw [hrax, ← Except.ok.inj hop]
    simp

theorem leads_unary {op : UnaryOp} (hv : isWord v) (hroom : stack.size < L.slots)
    (hrest : ∀ regs' flags', Keeps regs regs' →
      L.Leads env ⟨regs', flags', stack.push (word (op.eval v)), heap, taken⟩ rest Q) :
    L.Leads env ⟨regs, flags, stack.push (word v), heap, taken⟩ (plain (Snippet.unary op) ++ rest) Q := by
  cases op with
  | neg =>
    refine leads_update (x := .slot stack.size) (w := word v) (f := fun w => -w) (fun _ _ => rfl)
      (locate_onStack (k := 0) (by simp)) (by simp [Picture.at]) ?_
    have hneg : -word v = word (UnaryOp.neg.eval v) := by rw [UnaryOp.eval, word_wrap, word_neg]
    rw [Picture.put, setIfInBounds_push, hneg]
    exact hrest _ _ ⟨rfl, rfl, rfl, rfl, rfl⟩
  | not =>
    refine leads_pop (by decide) (leads_test (by decide) (by decide) (leads_truth (leads_push (gives_reg rfl) hroom ?_)))
    simp only [setReg_self, (holds_logical hv).1]
    exact hrest _ _ ⟨rfl, rfl, rfl, rfl, rfl⟩

theorem leads_binary {op : BinaryOp} (hv : isWord v) (hw : isWord w) (hop : op.eval v w = .ok n)
    (hroom : stack.size < L.slots)
    (hrest : ∀ regs' flags', Keeps regs regs' →
      L.Leads env ⟨regs', flags', stack.push (word n), heap, taken⟩ rest Q) :
    L.Leads env ⟨regs, flags, (stack.push (word v)).push (word w), heap, taken⟩ (plain (Snippet.binary op) ++ rest) Q := by
  rw [Snippet.binary, plain_append, plain_append, List.append_assoc, List.append_assoc]
  refine leads_pop (by decide) (leads_pop (by decide) (leads_apply hv hw hop rfl rfl fun regs' flags' hkeeps hrax =>
    leads_push (gives_reg hrax) hroom (hrest regs' flags' ?_)))
  exact ⟨hkeeps.rbx, hkeeps.rbp, hkeeps.r12, hkeeps.r13, hkeeps.r14⟩

/-! ## Instructions that all machines share -/

/-- the words of an operand stack as they lie in memory; saved frame pointers are addresses -/
def drawn (L : Layout) (saved : Finset Nat) (ws : Array Int) : Array Word :=
  ws.mapIdx fun i w => if i ∈ saved then L.frame w else word w

section
variable {saved saved' : Finset Nat} {ws : Array Int} {i : Nat}

@[simp] theorem size_drawn (L : Layout) (saved : Finset Nat) (ws : Array Int) : (L.drawn saved ws).size = ws.size := by
  simp [drawn]

theorem drawn_push (h : ws.size ∉ saved) : L.drawn saved (ws.push v) = (L.drawn saved ws).push (word v) := by
  rw [drawn, Array.mapIdx_push, if_neg h, drawn]

theorem drawn_push_saved (h : ws.size ∈ saved) : L.drawn saved (ws.push v) = (L.drawn saved ws).push (L.frame v) := by
  rw [drawn, Array.mapIdx_push, if_pos h, drawn]

theorem getElem?_drawn (hw : ws[i]? = some w) (hi : i ∉ saved) : (L.drawn saved ws)[i]? = some (word w) := by
  simp [drawn, hw, hi]

theorem getElem?_drawn_saved (hw : ws[i]? = some w) (hi : i ∈ saved) :
    (L.drawn saved ws)[i]? = some (L.frame w) := by
  simp [drawn, hw, hi]

/-- a write over any word, be it a saved frame pointer -/
theorem drawn_overwrite (hi : i ∉ saved') (hsame : ∀ j, j ≠ i → (j ∈ saved ↔ j ∈ saved')) :
    L.drawn saved' (ws.setIfInBounds i w) = (L.drawn saved ws).setIfInBounds i (word w) := by
  refine Array.ext_getElem? fun j => ?_
  rw [drawn, Array.getElem?_mapIdx, Array.getElem?_setIfInBounds, Array.getElem?_setIfInBounds, size_drawn, drawn,
    Array.getElem?_mapIdx]
  by_cases hij : i = j
  · subst hij
    by_cases hlt : i < ws.size
    · simp [hlt, hi]
    · simp [hlt]
  · simp [hij, hsame j (Ne.symm hij)]

theorem drawn_set (hi : i ∉ saved) :
    L.drawn saved (ws.setIfInBounds i w) = (L.drawn saved ws).setIfInBounds i (word w) :=
  drawn_overwrite hi fun _ _ => Iff.rfl

theorem drawn_take (n : Nat) : L.drawn saved (ws.take n) = (L.drawn saved ws).take n := by
  refine Array.ext (by simp) fun j h₁ h₂ => ?_
  simp [drawn]

theorem drawn_pushes {ρ : Type} (m : Memory ρ) (as : List Int) (h : ∀ i ∈ saved, i < m.words.size) :
    L.drawn saved (m.pushes as).words = L.drawn saved m.words ++ (as.map word).toArray := by
  induction as generalizing m with
  | nil => simp
  | cons a as ih =>
    have hfree : m.words.size ∉ saved := fun hmem => absurd (h _ hmem) (Nat.lt_irrefl _)
    rw [Memory.pushes_cons, ih (m.push a) fun i hi => by simpa using Nat.lt_succ_of_lt (h i hi), Memory.push_words,
      drawn_push hfree]
    simp [← Array.append_singleton]

/-- words beyond the stack do not matter -/
theorem drawn_congr (h : ∀ i < ws.size, i ∈ saved ↔ i ∈ saved') : L.drawn saved ws = L.drawn saved' ws := by
  refine Array.ext_getElem? fun j => ?_
  rw [drawn, drawn, Array.getElem?_mapIdx, Array.getElem?_mapIdx]
  by_cases hj : j < ws.size
  · simp [hj, h j hj]
  · simp [hj]

end

end Layout

/-- the words under the top that an instruction of all machines works on -/
def reach {ι : Type} : ThreeMachines.Instr ι → Nat
  | .loadc _ | .label _ | .jump _ | .own _ => 0
  | .pop | .dup | .dec | .unary _ | .jumpz _ => 1
  | .swap | .binary _ => 2

namespace Layout

variable {L : Layout} {env : Surroundings}

/-- what native code finds around an instruction of a program -/
structure Surrounds {ι : Type} (image : Image ι) (pc : Nat) (env : Surroundings) : Prop where
  labels : ∀ l target, image.target l = .ok target → env.labels l = some (word (Image.base + target))
  next : env.next = word (Image.base + (pc + 1 : Nat))

/-- the surroundings of an instruction, with functions of other units -/
def around {ι : Type} (image : Image ι) (pc : Nat) (imports : String → Option (Cpu → Cpu)) : Surroundings where
  labels l := match image.target l with
    | .ok target => some (word (Image.base + target))
    | .error _ => none
  data _ := none
  imports := imports
  next := word (Image.base + (pc + 1 : Nat))

theorem surrounds_around {ι : Type} (image : Image ι) (pc : Nat) (imports : String → Option (Cpu → Cpu)) :
    Surrounds image pc (around image pc imports) where
  labels l target h := by rw [around]; simp only [h]
  next := rfl

theorem leads_done {ι : Type} {image : Image ι} {pc : Nat} {p : Picture} {P : Picture → Prop}
    (henv : Surrounds image pc env) (hP : P p) : L.Leads env p [] (L.Leaves (word (Image.base + (pc + 1 : Nat))) P) :=
  henv.next ▸ leads_nil hP

/-- the stack has changed and nothing else -/
structure Restacked (p : Picture) (stack : Array Word) (p' : Picture) : Prop where
  stack : p'.stack = stack
  regs : Keeps p.regs p'.regs
  heap : p'.heap = p.heap
  taken : p'.taken = p.taken

/-- the instruction has changed the stack alone, and its code changes the native stack in the same way -/
structure Restacks {ι ρ : Type} (L : Layout) (env : Surroundings) (own : ι → Asm) (saved : Finset Nat)
    (i : ThreeMachines.Instr ι) (m : Memory ρ) (p : Picture) (s : State ρ) : Prop where
  heap : s.heap = m.heap
  regs : s.regs = m.regs
  size : m.words.size ≤ s.stack.words.size + reach i
  leads : L.Leads env p (Snippet.lower own i)
    (L.Leaves (word (Image.base + s.pc)) (Restacked p (L.drawn saved s.stack.words)))

theorem drawn_room {saved : Finset Nat} {ws : Array Int} {w : Int} (h : (ws.push w).size ≤ L.slots) :
    (L.drawn saved ws).size < L.slots := by
  simpa [Nat.succ_le_iff] using h

section
variable {ι ρ : Type} [Runnable ι ρ] {own : ι → Asm} {saved : Finset Nat} {image : Image ι} {m : Memory ρ} {s : State ρ}
  {pc r : Nat} {l : Label} {regs : Reg → Word} {flags : Option Flags} {heap : Array Word} {taken : Nat}

theorem restacks_loadc {value : Const} (henv : Surrounds image pc env) (hfree : m.words.size ∉ saved)
    (h : ThreeMachines.Instr.exec image (.loadc value) (m.at_ (pc + 1) r) = .ok () s) (hroom : s.stack.size ≤ L.slots) :
    Restacks L env own saved (.loadc value) m ⟨regs, flags, L.drawn saved m.words, heap, taken⟩ s := by
  cases value with
  | int n =>
    rw [ThreeMachines.Instr.exec, Exec.push_at] at h
    cases h
    refine ⟨rfl, rfl, by simp [reach], leads_movInt (by decide) (leads_push (w := word n) (gives_reg rfl)
      (drawn_room hroom) (leads_done henv ?_))⟩
    exact ⟨(drawn_push hfree).symm, (Keeps.refl regs).set (by decide) _, rfl, rfl⟩
  | addr l =>
    obtain ⟨a, ha, h₁⟩ := Exec.check_bind h
    obtain ⟨target, hl, rfl⟩ := Image.addressOf_ok ha
    rw [Exec.push_at] at h₁
    cases h₁
    refine ⟨rfl, rfl, by simp [reach], leads_movAddr (by decide) (henv.labels l target hl) (leads_push (w := word _)
      (gives_reg rfl) (drawn_room hroom) (leads_done henv ?_))⟩
    exact ⟨(drawn_push hfree).symm, (Keeps.refl regs).set (by decide) _, rfl, rfl⟩

theorem restacks_pop (henv : Surrounds image pc env)
    (h : ThreeMachines.Instr.exec image .pop (m.at_ (pc + 1) r) = .ok () s) :
    Restacks L env own saved .pop m ⟨regs, flags, L.drawn saved m.words, heap, taken⟩ s := by
  obtain ⟨m', w, rfl, h₁⟩ := Exec.pop_bind h
  cases h₁
  have htake : (L.drawn saved (m'.push w).words).take m'.words.size = L.drawn saved m'.words := by
    rw [← drawn_take, Memory.push_words]
    simp
  refine ⟨rfl, rfl, by simp [reach], leads_drop (n := m'.words.size) (k := 1) (by simp) (leads_done henv ?_)⟩
  exact ⟨htake, Keeps.refl regs, rfl, rfl⟩

theorem restacks_dup (henv : Surrounds image pc env) (hfree : ∀ j, m.words.size ≤ j + 1 → j ∉ saved)
    (h : ThreeMachines.Instr.exec image .dup (m.at_ (pc + 1) r) = .ok () s) (hroom : s.stack.size ≤ L.slots) :
    Restacks L env own saved .dup m ⟨regs, flags, L.drawn saved m.words, heap, taken⟩ s := by
  obtain ⟨m', w, rfl, h₁⟩ := Exec.top_bind h
  rw [Exec.push_at] at h₁
  cases h₁
  have htop : m'.words.size ∉ saved := hfree _ (by simp)
  refine ⟨rfl, rfl, by simp [reach], leads_push (gives_mem (x := .slot m'.words.size) (w := word w)
    (locate_onStack (k := 0) (by simp)) (getElem?_drawn (by simp) htop)) (drawn_room hroom) (leads_done henv ?_)⟩
  exact ⟨(drawn_push (hfree _ (Nat.le_succ _))).symm, Keeps.refl regs, rfl, rfl⟩

theorem restacks_swap (henv : Surrounds image pc env) (hfree : ∀ j, m.words.size ≤ j + 2 → j ∉ saved)
    (h : ThreeMachines.Instr.exec image .swap (m.at_ (pc + 1) r) = .ok () s) (hroom : s.stack.size ≤ L.slots) :
    Restacks L env own saved .swap m ⟨regs, flags, L.drawn saved m.words, heap, taken⟩ s := by
  obtain ⟨m₁, w, rfl, h₁⟩ := Exec.pop_bind h
  obtain ⟨m', v, rfl, h₂⟩ := Exec.pop_bind h₁
  simp only [bind_apply, Exec.push_at] at h₂
  cases h₂
  have hdrawn (a b : Int) : L.drawn saved ((m'.push a).push b).words =
      ((L.drawn saved m'.words).push (word a)).push (word b) := by
    rw [Memory.push_words, drawn_push (hfree _ (by simp)), Memory.push_words, drawn_push (hfree _ (by simp))]
  have hroom' : (L.drawn saved m'.words).size + 1 < L.slots := by
    simpa [Nat.succ_le_iff] using hroom
  rw [hdrawn]
  refine ⟨rfl, rfl, by simp [reach], leads_pop (by decide) (leads_pop (by decide) (leads_push (w := word w) (gives_reg rfl)
    (by omega) (leads_push (w := word v) (gives_reg rfl) (by simpa using hroom') (leads_done henv ?_))))⟩
  exact ⟨(hdrawn w v).symm, ((Keeps.refl regs).set (by decide) _).set (by decide) _, rfl, rfl⟩

theorem restacks_dec (henv : Surrounds image pc env) (hfree : ∀ j, m.words.size ≤ j + 1 → j ∉ saved)
    (h : ThreeMachines.Instr.exec image .dec (m.at_ (pc + 1) r) = .ok () s) :
    Restacks L env own saved .dec m ⟨regs, flags, L.drawn saved m.words, heap, taken⟩ s := by
  obtain ⟨m', w, rfl, h₁⟩ := Exec.top_bind h
  rw [Exec.poke_zero_at] at h₁
  cases h₁
  have htop : m'.words.size ∉ saved := hfree _ (by simp)
  have hless : word w - 1 = word (wrap (w - 1)) := by
    rw [word_wrap, word_sub]
    rfl
  rw [Memory.push_words, drawn_push htop]
  refine ⟨rfl, rfl, by simp [reach], leads_update (x := .slot (L.drawn saved m'.words).size) (w := word w)
    (f := fun w => w - 1) (fun _ _ => rfl) (locate_onStack (k := 0) (by simp))
    (by rw [Picture.at, Array.getElem?_push_size]) ?_⟩
  rw [Picture.put, setIfInBounds_push, hless]
  exact leads_done henv ⟨(drawn_push htop).symm, Keeps.refl regs, rfl, rfl⟩

theorem restacks_unary {op : UnaryOp} (henv : Surrounds image pc env) (hwords : ∀ w ∈ m.words, isWord w)
    (hfree : ∀ j, m.words.size ≤ j + 1 → j ∉ saved)
    (h : ThreeMachines.Instr.exec image (.unary op) (m.at_ (pc + 1) r) = .ok () s) (hroom : s.stack.size ≤ L.slots) :
    Restacks L env own saved (.unary op) m ⟨regs, flags, L.drawn saved m.words, heap, taken⟩ s := by
  obtain ⟨m', w, rfl, h₁⟩ := Exec.pop_bind h
  rw [Exec.push_at] at h₁
  cases h₁
  have htop : m'.words.size ∉ saved := hfree _ (by simp)
  rw [Memory.push_words, drawn_push htop]
  refine ⟨rfl, rfl, by simp [reach], ?_⟩
  rw [Snippet.lower, ← List.append_nil (plain _)]
  refine leads_unary (hwords w (by simp)) (drawn_room hroom) fun regs' flags' hkeeps => leads_done henv ?_
  exact ⟨(drawn_push htop).symm, hkeeps, rfl, rfl⟩

theorem restacks_binary {op : BinaryOp} (henv : Surrounds image pc env) (hwords : ∀ w ∈ m.words, isWord w)
    (hfree : ∀ j, m.words.size ≤ j + 2 → j ∉ saved)
    (h : ThreeMachines.Instr.exec image (.binary op) (m.at_ (pc + 1) r) = .ok () s) (hroom : s.stack.size ≤ L.slots) :
    Restacks L env own saved (.binary op) m ⟨regs, flags, L.drawn saved m.words, heap, taken⟩ s := by
  obtain ⟨m₁, w, rfl, h₁⟩ := Exec.pop_bind h
  obtain ⟨m', v, rfl, h₂⟩ := Exec.pop_bind h₁
  obtain ⟨n, hop, h₃⟩ := Exec.check_bind h₂
  rw [Exec.push_at] at h₃
  cases h₃
  have hlow : m'.words.size ∉ saved := hfree _ (by simp)
  have hhigh : (m'.push v).words.size ∉ saved := hfree _ (by simp)
  rw [Memory.push_words, drawn_push hhigh, Memory.push_words, drawn_push hlow]
  refine ⟨rfl, rfl, by simp [reach], ?_⟩
  rw [Snippet.lower, ← List.append_nil (plain _)]
  refine leads_binary (hwords v (by simp)) (hwords w (by simp)) hop (drawn_room hroom) fun regs' flags' hkeeps =>
    leads_done henv ?_
  exact ⟨(drawn_push hlow).symm, hkeeps, rfl, rfl⟩

theorem restacks_jump (henv : Surrounds image pc env)
    (h : ThreeMachines.Instr.exec image (.jump l) (m.at_ (pc + 1) r) = .ok () s) :
    Restacks L env own saved (.jump l) m ⟨regs, flags, L.drawn saved m.words, heap, taken⟩ s := by
  obtain ⟨target, hl, h₁⟩ := Exec.check_bind h
  cases h₁
  exact ⟨rfl, rfl, by simp [reach], leads_jmp (henv.labels l target hl) ⟨rfl, Keeps.refl regs, rfl, rfl⟩⟩

theorem restacks_jumpz (henv : Surrounds image pc env) (hwords : ∀ w ∈ m.words, isWord w)
    (hfree : ∀ j, m.words.size ≤ j + 1 → j ∉ saved)
    (h : ThreeMachines.Instr.exec image (.jumpz l) (m.at_ (pc + 1) r) = .ok () s) :
    Restacks L env own saved (.jumpz l) m ⟨regs, flags, L.drawn saved m.words, heap, taken⟩ s := by
  obtain ⟨m', w, rfl, h₁⟩ := Exec.pop_bind h
  have htop : m'.words.size ∉ saved := hfree _ (by simp)
  have hcond := (holds_logical (hwords w (by simp))).1
  have hkeeps : Keeps regs (setReg regs .rax (word w)) := (Keeps.refl regs).set (by decide) _
  rw [Memory.push_words, drawn_push htop]
  by_cases hw : w = 0
  · simp only [hw, if_true] at h₁
    obtain ⟨target, hl, h₂⟩ := Exec.check_bind h₁
    cases h₂
    refine ⟨rfl, rfl, by simp [reach], leads_pop (by decide) (leads_test (by decide) (by decide) (leads_jcc
      (fun _ => henv.labels l target hl) (fun _ => ⟨rfl, hkeeps, rfl, rfl⟩) fun hno => ?_))⟩
    rw [setReg_self, hcond, decide_eq_false_iff_not] at hno
    exact absurd hw hno
  · simp only [hw, if_false, pure_apply] at h₁
    cases h₁
    refine ⟨rfl, rfl, by simp [reach], leads_pop (by decide) (leads_test (by decide) (by decide) (leads_jcc (fun hyes => ?_)
      (fun _ => ⟨rfl, hkeeps, rfl, rfl⟩) fun _ => leads_done henv ⟨rfl, hkeeps, rfl, rfl⟩))⟩
    rw [setReg_self, hcond, decide_eq_true_eq] at hyes
    exact absurd hyes hw

/-- **Instructions that all machines share.** Where the instruction succeeds, its code does the same. -/
theorem leads_common (own : ι → Asm) (saved : Finset Nat) {i : ThreeMachines.Instr ι} {p : Picture}
    (hi : ∀ op, i ≠ .own op) (henv : Surrounds image pc env) (hp : p.stack = L.drawn saved m.words)
    (hwords : ∀ w ∈ m.words, isWord w) (hsaved : ∀ j ∈ saved, j + reach i < m.words.size)
    (h : i.exec image (m.at_ (pc + 1) r) = .ok () s) (hroom : s.stack.size ≤ L.slots) :
    Restacks L env own saved i m p s := by
  obtain ⟨regs, flags, stack, heap, taken⟩ := p
  subst hp
  -- words that are reached are no saved frame pointers
  have hfree : ∀ j, m.words.size ≤ j + reach i → j ∉ saved := fun j hj hmem => by
    have := hsaved j hmem
    omega
  cases i with
  | own op => exact absurd rfl (hi op)
  | loadc value => exact restacks_loadc henv (hfree _ le_rfl) h hroom
  | pop => exact restacks_pop henv h
  | dup => exact restacks_dup henv hfree h hroom
  | swap => exact restacks_swap henv hfree h hroom
  | dec => exact restacks_dec henv hfree h
  | unary op => exact restacks_unary henv hwords hfree h hroom
  | binary op => exact restacks_binary henv hwords hfree h hroom
  | label l =>
    cases h
    exact ⟨rfl, rfl, by simp [reach], leads_done henv ⟨rfl, Keeps.refl regs, rfl, rfl⟩⟩
  | jump l => exact restacks_jump henv h
  | jumpz l => exact restacks_jumpz henv hwords hfree h

end

/-- **Traps.** A binary operator without a value traps. -/
theorem leads_binary_trap {op : BinaryOp} {regs : Reg → Word} {flags : Option Flags} {stack heap : Array Word}
    {taken : Nat} {v w : Int} {cause : Fault} (hv : isWord v) (hw : isWord w) (hop : op.eval v w = .error cause) :
    L.Leads env ⟨regs, flags, (stack.push (word v)).push (word w), heap, taken⟩ (plain (Snippet.binary op))
      (· = .trap) := by
  cases op with
  | div => exact leads_pop (by decide) (leads_pop (by decide) (leads_trap hv hw hop rfl rfl))
  | add | sub | mul | lt | gt | le | ge | eq | ne | and | or => cases hop

/-- where an instruction is in want of a quotient, its code traps -/
theorem leads_trap_of_exec {ι ρ : Type} [Runnable ι ρ] {own : ι → Asm} (saved : Finset Nat) {image : Image ι}
    {i : ThreeMachines.Instr ι} {m : Memory ρ} {s : State ρ} {pc r : Nat} {p : Picture} {cause : Fault}
    (hown : ∀ op : ι, Exec.Quiet (Runnable.exec image op : Exec ρ Unit)) (hp : p.stack = L.drawn saved m.words)
    (hwords : ∀ w ∈ m.words, isWord w) (hsaved : ∀ j ∈ saved, j + reach i < m.words.size)
    (h : i.exec image (m.at_ pc r) = .error cause s) (hcause : cause = .divisionByZero ∨ cause = .overflow) :
    L.Leads env p (Snippet.lower own i) (· = .trap) := by
  obtain ⟨op, m', v, w, rfl, rfl, hop⟩ := Instr.exec_error hown h hcause
  obtain ⟨regs, flags, stack, heap, taken⟩ := p
  have hlow : m'.words.size ∉ saved := fun hmem => absurd (hsaved _ hmem) (by simp [reach])
  have hhigh : m'.words.size + 1 ∉ saved := fun hmem => absurd (hsaved _ hmem) (by simp [reach])
  rw [Memory.push_words, drawn_push (by simpa using hhigh), Memory.push_words, drawn_push hlow] at hp
  subst hp
  exact leads_binary_trap (hwords v (by simp)) (hwords w (by simp)) hop

end Layout

/-- only a division has `idiv` in its code -/
theorem eq_div_of_mem_lower {ι : Type} {own : ι → Asm} {i : ThreeMachines.Instr ι} {r : Reg} {note : Option String}
    (hown : ∀ op, .instr (.idiv r) note ∉ own op) (h : .instr (.idiv r) note ∈ Snippet.lower own i) :
    i = .binary .div := by
  cases i with
  | own op => exact absurd h (hown op)
  | binary op => cases op <;> simp [Snippet.lower, Snippet.binary, Snippet.apply, Snippet.apply.logical, plain] at h ⊢
  | unary op => cases op <;> simp [Snippet.lower, Snippet.unary, Snippet.pushCond, plain] at h
  | loadc value | label l | jump l | jumpz l => simp [Snippet.lower, plain] at h
  | pop | dup | swap | dec => simp [Snippet.lower, plain] at h

end ThreeMachines.Native
