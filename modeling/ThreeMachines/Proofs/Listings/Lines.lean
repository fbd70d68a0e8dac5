/-
Lines can be read back.

Nothing in a line is quoted, so what stands in a column has to keep clear of what separates columns: `Tight` texts have
no blank, no comma and no line feed. Then the comma that ends an operand is the first one, however many blanks fill up
the tab stop behind it (`Joined.inj`), and the mnemonic ends at the first blank.

- `Line.body_inj`: a mnemonic and operands that are tight can be told from the text of the instruction.
- `Line.render_inj`: lines without line feeds can be told from the whole text.
-/
import ThreeMachines.Proofs.Texts
import ThreeMachines.Text.Line

namespace ThreeMachines

theorem map_inj_on {α β : Type} {f : α → β} {xs ys : List α} (hf : ∀ x ∈ xs, ∀ y ∈ ys, f x = f y → x = y)
    (h : xs.map f = ys.map f) : xs = ys := by
  induction xs generalizing ys with
  | nil => cases ys with
    | nil => rfl
    | cons y ys => cases h
  | cons x xs ih => cases ys with
    | nil => cases h
    | cons y ys =>
      obtain ⟨hfirst, hrest⟩ := List.cons.inj h
      rw [hf x List.mem_cons_self y List.mem_cons_self hfirst]
      rw [ih (fun x hx y hy => hf x (List.mem_cons_of_mem _ hx) y (List.mem_cons_of_mem _ hy)) hrest]

/-- a text that fills a column by itself -/
structure Tight (t : String) : Prop where
  nonempty : t.toList ≠ []
  blank : ' ' ∉ t.toList
  comma : ',' ∉ t.toList
  feed : '\n' ∉ t.toList

instance (t : String) : Decidable (Tight t) :=
  decidable_of_iff (t.toList ≠ [] ∧ ' ' ∉ t.toList ∧ ',' ∉ t.toList ∧ '\n' ∉ t.toList)
    ⟨fun ⟨hne, hblank, hcomma, hfeed⟩ => ⟨hne, hblank, hcomma, hfeed⟩,
      fun h => ⟨h.nonempty, h.blank, h.comma, h.feed⟩⟩

/-- a text all of whose characters are of a class without separators -/
theorem Tight.of_class {t : String} {f : Char → Bool} (hne : t.toList ≠ []) (hf : [' ', ',', '\n'].any f = false)
    (h : ∀ c ∈ t.toList, f c = true) : Tight t := by
  have hout (separator : Char) (hseparator : separator ∈ [' ', ',', '\n']) : separator ∉ t.toList := by
    intro hmem
    exact absurd (h separator hmem) (List.any_eq_false.1 hf separator hseparator)
  exact ⟨hne, hout ' ' (by simp), hout ',' (by simp), hout '\n' (by simp)⟩

theorem Tight.head?_ne {t : String} (h : Tight t) (more : List Char) : (t.toList ++ more).head? ≠ some ' ' := by
  obtain ⟨c, rest, hlist⟩ := List.exists_cons_of_ne_nil h.nonempty
  intro hhead
  have hblank := h.blank
  simp_all

/-! ## Columns -/

/-- texts one after the other, with a comma and any number of blanks between them -/
inductive Joined : List String → List Char → Prop where
  | nil : Joined [] []
  | single (t : String) : Joined [t] t.toList
  | cons (t : String) (width : Nat) {next : String} {rest : List String} {cs : List Char}
      (h : Joined (next :: rest) cs) : Joined (t :: next :: rest) (t.toList ++ ',' :: (List.replicate width ' ' ++ cs))

/-- the number of blanks in front of something else does not matter -/
theorem blanks_inj {n n' : Nat} {cs cs' : List Char} (hcs : cs.head? ≠ some ' ') (hcs' : cs'.head? ≠ some ' ')
    (h : List.replicate n ' ' ++ cs = List.replicate n' ' ' ++ cs') : cs = cs' := by
  have hdrop (n : Nat) {cs : List Char} (hcs : cs.head? ≠ some ' ') :
      (List.replicate n ' ' ++ cs).dropWhile (· = ' ') = cs := by
    induction n with
    | zero => cases cs with
      | nil => rfl
      | cons c cs =>
        have hc : c ≠ ' ' := fun hc => hcs (congrArg some hc)
        simp [hc]
    | succ n ih => simpa [List.replicate_succ] using ih
  calc
    cs = (List.replicate n ' ' ++ cs).dropWhile (· = ' ') := (hdrop n hcs).symm
    _ = (List.replicate n' ' ' ++ cs').dropWhile (· = ' ') := by rw [h]
    _ = cs' := hdrop n' hcs'

namespace Joined

variable {ts us : List String} {cs : List Char}

theorem head?_ne (h : Joined ts cs) (hts : ∀ t ∈ ts, Tight t) : cs.head? ≠ some ' ' := by
  cases h with
  | nil => nofun
  | single t => simpa using (hts t List.mem_cons_self).head?_ne []
  | cons t width h => exact (hts t List.mem_cons_self).head?_ne _

/-- nothing but commas and blanks comes in between -/
theorem notMem {c : Char} (h : Joined ts cs) (hcomma : c ≠ ',') (hblank : c ≠ ' ') (hts : ∀ t ∈ ts, c ∉ t.toList) :
    c ∉ cs := by
  induction h with
  | nil => exact List.not_mem_nil
  | single t => exact hts t List.mem_cons_self
  | cons t width h ih =>
    obtain ⟨ht, hts⟩ := List.forall_mem_cons.1 hts
    simp [ht, ih hts, List.mem_replicate, hcomma, hblank]

/-- **Columns.** Tight texts can be told from what they are joined to, whatever the numbers of blanks. -/
theorem inj (h : Joined ts cs) (h' : Joined us cs) (hts : ∀ t ∈ ts, Tight t) (hus : ∀ u ∈ us, Tight u) : ts = us := by
  generalize heq : cs = ds at h'
  induction h generalizing us ds with
  | nil =>
    cases h' with
    | nil => rfl
    | single u => exact absurd heq.symm (hus u List.mem_cons_self).nonempty
    | cons => simp at heq
  | single t =>
    have ht := hts t List.mem_cons_self
    cases h' with
    | nil => exact absurd heq ht.nonempty
    | single u => rw [String.toList_inj.1 heq]
    | cons u width h' =>
      have hcomma : ',' ∈ t.toList := by simp [heq]
      exact absurd hcomma ht.comma
  | @cons t width next rest cs h ih =>
    obtain ⟨ht, hts⟩ := List.forall_mem_cons.1 hts
    cases h' with
    | nil => simp at heq
    | single u =>
      have hcomma : ',' ∈ u.toList := by simp [← heq]
      exact absurd hcomma (hus u List.mem_cons_self).comma
    | @cons u width' next' rest' ds h' =>
      obtain ⟨hu, hus⟩ := List.forall_mem_cons.1 hus
      obtain ⟨hfirst, hrest⟩ := cut_inj ht.comma hu.comma heq
      rw [String.toList_inj.1 hfirst, ih hts hus _ (blanks_inj (h.head?_ne hts) (h'.head?_ne hus) hrest) h']

end Joined

/-- a separated list is joined -/
theorem joined_intercalate (ts : List String) : Joined ts (String.intercalate ", " ts).toList := by
  induction ts with
  | nil => simpa using Joined.nil
  | cons t ts ih => cases ts with
    | nil => simpa using Joined.single t
    | cons next rest => simpa [String.intercalate_cons_cons] using ih.cons t 1

theorem notMem_intercalate {c : Char} {ts : List String} (hcomma : c ≠ ',') (hblank : c ≠ ' ')
    (h : ∀ t ∈ ts, c ∉ t.toList) : c ∉ (String.intercalate ", " ts).toList :=
  (joined_intercalate ts).notMem hcomma hblank h

/-- **Lists.** Tight texts can be told from their list with commas. -/
theorem intercalate_inj {ts us : List String} (hts : ∀ t ∈ ts, Tight t) (hus : ∀ u ∈ us, Tight u)
    (h : String.intercalate ", " ts = String.intercalate ", " us) : ts = us := by
  have hjoined := joined_intercalate us
  rw [← h] at hjoined
  exact (joined_intercalate ts).inj hjoined hts hus

namespace Line

theorem toList_pad (text : String) (width : Nat) :
    (pad text width).toList = text.toList ++ List.replicate (width - text.length) ' ' := by
  have hpushn (n : Nat) : (text.pushn ' ' n).toList = text.toList ++ List.replicate n ' ' := by
    unfold String.pushn
    induction n with
    | zero => simp [Nat.repeat]
    | succ n ih => simp [Nat.repeat, ih, List.replicate_succ']
  exact hpushn _

/-- columns are joined -/
theorem joined_columns (operands : List String) : Joined operands (columns operands).toList := by
  induction operands with
  | nil => simpa [columns] using Joined.nil
  | cons operand rest ih => cases rest with
    | nil => exact .single operand
    | cons next rest =>
      have htext : (columns (operand :: next :: rest)).toList = operand.toList ++
          ',' :: (List.replicate (tabWidth - (operand ++ ",").length) ' ' ++ (columns (next :: rest)).toList) := by
        simp [columns, toList_pad]
      rw [htext]
      exact ih.cons operand _

/-- what follows a mnemonic -/
inductive Trailing : List String → List Char → Prop where
  | none : Trailing [] []
  | some {operands : List String} (width : Nat) (hne : operands ≠ []) :
    Trailing operands (' ' :: (List.replicate width ' ' ++ (columns operands).toList))

theorem toList_body (mnemonic : String) (operands : List String) :
    ∃ more, Trailing operands more ∧
      (body mnemonic operands).toList = List.replicate tabWidth ' ' ++ (mnemonic.toList ++ more) := by
  cases operands with
  | nil => exact ⟨[], .none, by simp [body, toList_pad]⟩
  | cons operand rest =>
    refine ⟨_, .some (tabWidth - 1 - mnemonic.length) (List.cons_ne_nil _ _), ?_⟩
    have hblanks (n : Nat) (cs : List Char) :
        List.replicate n ' ' ++ ' ' :: cs = ' ' :: (List.replicate n ' ' ++ cs) := by
      rw [← List.cons_append, ← List.replicate_succ, List.replicate_succ', List.append_assoc, List.singleton_append]
    simp [body, toList_pad, hblanks]

section
variable {mnemonic mnemonic' : String} {operands operands' : List String}

/-- an instruction is on one line -/
theorem feed_notMem_body (hm : Tight mnemonic) (hops : ∀ t ∈ operands, Tight t) :
    '\n' ∉ (body mnemonic operands).toList := by
  obtain ⟨more, hmore, htext⟩ := toList_body mnemonic operands
  have hfeed : '\n' ∉ more := by
    cases hmore with
    | none => exact List.not_mem_nil
    | some =>
      have hcolumns := (joined_columns operands).notMem (by decide) (by decide) fun t ht => (hops t ht).feed
      simp [List.mem_replicate, hcolumns]
  simp [htext, List.mem_replicate, hm.feed, hfeed]

/-- **Instructions.** A mnemonic and operands that are tight can be told from the text. -/
theorem body_inj (hm : Tight mnemonic) (hm' : Tight mnemonic') (hops : ∀ t ∈ operands, Tight t)
    (hops' : ∀ t ∈ operands', Tight t) (h : body mnemonic operands = body mnemonic' operands') :
    mnemonic = mnemonic' ∧ operands = operands' := by
  obtain ⟨more, hmore, htext⟩ := toList_body mnemonic operands
  obtain ⟨more', hmore', htext'⟩ := toList_body mnemonic' operands'
  rw [h, htext', List.append_right_inj] at htext
  cases hmore with
  | none =>
    cases hmore' with
    | none => exact ⟨String.toList_inj.1 (by simpa using htext.symm), rfl⟩
    | some =>
      rw [List.append_nil] at htext
      exact absurd (htext ▸ by simp) hm.blank
  | some =>
    cases hmore' with
    | none =>
      rw [List.append_nil] at htext
      exact absurd (htext ▸ by simp) hm'.blank
    | some =>
      obtain ⟨hfirst, hrest⟩ := cut_inj hm'.blank hm.blank htext
      have hcolumns := joined_columns operands
      have hcolumns' := joined_columns operands'
      rw [blanks_inj (hcolumns'.head?_ne hops') (hcolumns.head?_ne hops) hrest] at hcolumns'
      exact ⟨(String.toList_inj.1 hfirst).symm, hcolumns.inj hcolumns' hops hops'⟩

end

/-! ## Whole texts -/

/-- **Texts.** Lines without line feeds can be told from the text that they make up. -/
theorem render_inj {lines lines' : List Line} (h : ∀ l ∈ lines, '\n' ∉ l.text.toList)
    (h' : ∀ l ∈ lines', '\n' ∉ l.text.toList) (htext : render lines = render lines') :
    lines.map text = lines'.map text := by
  have hrender (lines : List Line) :
      (render lines).toList = lines.flatMap fun line => line.text.toList ++ ['\n'] := by
    simp [render, List.flatMap_map]
  have hlist := congrArg String.toList htext
  rw [hrender, hrender] at hlist
  clear htext
  induction lines generalizing lines' with
  | nil => cases lines' with
    | nil => rfl
    | cons l' lines' => simp at hlist
  | cons l lines ih => cases lines' with
    | nil => simp at hlist
    | cons l' lines' =>
      obtain ⟨hl, h⟩ := List.forall_mem_cons.1 h
      obtain ⟨hl', h'⟩ := List.forall_mem_cons.1 h'
      simp only [List.flatMap_cons, List.append_assoc, List.singleton_append] at hlist
      obtain ⟨hfirst, hrest⟩ := cut_inj hl hl' hlist
      rw [List.map_cons, List.map_cons, String.toList_inj.1 hfirst, ih h h' hrest]

end Line

end ThreeMachines
