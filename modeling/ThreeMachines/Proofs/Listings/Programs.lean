/-
The text of a program tells which one it is.

A listing is a list of lines in sections: what is said of the machine and of the globals, the bodies, the entry stream.
Only the lines between sections are empty, so the text falls apart into its sections, and those of bodies begin with a
comment while that of the entry stream begins with a label. Inside a comment, names end at the comma, the bracket or the
at sign that follows, and none of these can be part of a name.

- `Program.listing_inj`: legible programs with the same listing are the same.
-/
import ThreeMachines.Proofs.Listings.Instructions
import ThreeMachines.Proofs.Parsing.Scanning

namespace ThreeMachines

/-! ## Names -/

theorem isNamePart_of_isName {name : String} (h : isName name) : ∀ c ∈ name.toList, isNamePart c = true := by
  obtain ⟨⟨c, cs, hlist, hstart, hparts⟩, -⟩ := isName_iff.1 h
  intro d hd
  rw [hlist] at hd
  rcases List.mem_cons.1 hd with rfl | hd
  · rw [isNameStart, Bool.or_eq_true] at hstart
    rcases hstart with halpha | hunderscore
    · simp [isNamePart, Char.isAlphanum, halpha]
    · rw [isNamePart, hunderscore, Bool.or_true]
  · exact hparts d hd

theorem tight_of_isName {name : String} (h : isName name) : Tight name := by
  obtain ⟨⟨c, cs, hlist, -⟩, -⟩ := isName_iff.1 h
  have hne : name.toList ≠ [] := by
    rw [hlist]
    exact List.cons_ne_nil _ _
  exact .of_class hne (by decide) (isNamePart_of_isName h)

/-- a name contains no mark -/
theorem notMem_of_isName {name : String} {mark : Char} (h : isName name) (hmark : isNamePart mark = false) :
    mark ∉ name.toList := by
  intro hmem
  rw [isNamePart_of_isName h mark hmem] at hmark
  cases hmark

/-- a global with a name -/
structure Binding.Legible (b : Binding) : Prop where
  name : isName b.name
  storage : b.storage = .global

namespace Binding

variable {b b' : Binding}

theorem toList_listed (b : Binding) : b.listed.toList = b.name.toList ++ '@' :: b.address.repr.toList := by
  simp [listed]

theorem Legible.tight (h : b.Legible) : Tight b.listed := by
  have hname := tight_of_isName h.name
  have haddress := tight_repr b.address
  refine ⟨?_, ?_, ?_, ?_⟩ <;> rw [toList_listed]
  · simp
  · simp [hname.blank, haddress.blank]
  · simp [hname.comma, haddress.comma]
  · simp [hname.feed, haddress.feed]

theorem listed_inj (h : b.Legible) (h' : b'.Legible) (heq : b.listed = b'.listed) : b = b' := by
  have hlist := congrArg String.toList heq
  rw [toList_listed, toList_listed] at hlist
  obtain ⟨hname, haddress⟩ :=
    cut_inj (notMem_of_isName h.name (by decide)) (notMem_of_isName h'.name (by decide)) hlist
  obtain ⟨name, storage, address⟩ := b
  obtain ⟨name', storage', address'⟩ := b'
  obtain rfl := String.toList_inj.1 hname
  obtain rfl := repr_inj.1 (String.toList_inj.1 haddress)
  obtain rfl : storage = storage' := h.storage.trans h'.storage.symm
  rfl

end Binding

variable {ι : Type} [Operation ι]

/-- names and labels of a body -/
structure LambdaBody.Legible (body : LambdaBody ι) : Prop where
  label : body.label.Legible
  params : ∀ x ∈ body.params, isName x
  captures : ∀ x ∈ body.captures, isName x
  code : ∀ i ∈ body.code, i.Legible

namespace Program

/-- names and labels of a program -/
structure Legible (p : Program ι) : Prop where
  code : ∀ i ∈ p.code, i.Legible
  bodies : ∀ body ∈ p.lambdas.bodies, body.Legible
  globals : ∀ b ∈ p.globals, b.Legible

/-! ## Sections -/

/-- the texts of code, line by line -/
def codeTexts (c : Code ι) : List String := c.map fun i => i.line.text

/-- the comment on a body -/
def signature (body : LambdaBody ι) : String :=
  "; (" ++ String.intercalate ", " body.params ++ ") captures [" ++ String.intercalate ", " body.captures ++ "]"

/-- the texts of bodies and of the entry stream, an empty line before each -/
def sections (entry : Code ι) : List (LambdaBody ι) → List String
  | [] => "" :: "main:" :: codeTexts entry
  | body :: bodies => "" :: signature body :: (body.label.text ++ ":") :: (codeTexts body.code ++ sections entry bodies)

/-- what is said of the globals -/
def globalsTexts (globals : List Binding) : List String := (globalsLine globals).map Line.text

theorem map_text (p : Program ι) : p.listingLines.map Line.text =
    ("; " ++ (Operation.machine ι).name ++ " machine") ::
      (globalsTexts p.globals ++ sections p.code p.lambdas.bodies) := by
  have hsections (bodies : List (LambdaBody ι)) :
      (bodies.flatMap bodyLines ++ ([.blank, .label "main"] ++ p.code.map Instr.line) : List Line).map Line.text =
        sections p.code bodies := by
    induction bodies with
    | nil => simp [sections, codeTexts, Line.text]
    | cons body bodies ih =>
      rw [List.flatMap_cons, List.append_assoc, List.map_append, ih, sections]
      simp [bodyLines, signature, codeTexts, Line.text]
  simp only [listingLines, List.append_assoc, List.map_append] at hsections ⊢
  rw [hsections]
  rfl

section
variable [Readable ι] {c c' : Code ι} {globals globals' : List Binding} {bodies bodies' : List (LambdaBody ι)}
  {body body' : LambdaBody ι}

theorem codeTexts_inj (h : ∀ i ∈ c, i.Legible) (h' : ∀ i ∈ c', i.Legible) (htexts : codeTexts c = codeTexts c') :
    c = c' :=
  map_inj_on (fun i hi j hj => Instr.line_inj (h i hi) (h' j hj)) htexts

/-- no line of code is empty -/
theorem empty_notMem_codeTexts (h : ∀ i ∈ c, i.Legible) : "" ∉ codeTexts c := by
  intro hmem
  obtain ⟨i, hi, htext⟩ := List.mem_map.1 hmem
  exact (Instr.line_proper (h i hi)).1 htext

omit [Operation ι] [Readable ι] in
theorem toList_signature (body : LambdaBody ι) : (signature body).toList = "; (".toList ++
    ((String.intercalate ", " body.params).toList ++ ')' :: (" captures [".toList ++
      ((String.intercalate ", " body.captures).toList ++ [']']))) := by
  simp [signature]

omit [Readable ι] in
/-- parameters and captures can be told from the comment -/
theorem signature_inj (h : body.Legible) (h' : body'.Legible) (htext : signature body = signature body') :
    body.params = body'.params ∧ body.captures = body'.captures := by
  have hbracket {names : List String} (hnames : ∀ x ∈ names, isName x) :
      ')' ∉ (String.intercalate ", " names).toList :=
    notMem_intercalate (by decide) (by decide) fun x hx => notMem_of_isName (hnames x hx) (by decide)
  have htight {names : List String} (hnames : ∀ x ∈ names, isName x) : ∀ x ∈ names, Tight x :=
    fun x hx => tight_of_isName (hnames x hx)
  have hlist := congrArg String.toList htext
  rw [toList_signature, toList_signature, List.append_right_inj] at hlist
  obtain ⟨hparams, hrest⟩ := cut_inj (hbracket h.params) (hbracket h'.params) hlist
  rw [List.append_right_inj, List.append_left_inj] at hrest
  exact ⟨intercalate_inj (htight h.params) (htight h'.params) (String.toList_inj.1 hparams),
    intercalate_inj (htight h.captures) (htight h'.captures) (String.toList_inj.1 hrest)⟩

omit [Readable ι] in
/-- what stands before an empty line ends there -/
theorem cut_sections {before before' : List String} (h : "" ∉ before) (h' : "" ∉ before')
    (htexts : before ++ sections c bodies = before' ++ sections c' bodies') :
    before = before' ∧ sections c bodies = sections c' bodies' := by
  have hstarts (c : Code ι) (bodies : List (LambdaBody ι)) : sections c bodies = "" :: (sections c bodies).tail := by
    cases bodies <;> rfl
  rw [hstarts c, hstarts c'] at htexts
  obtain ⟨hbefore, htail⟩ := cut_inj h h' htexts
  refine ⟨hbefore, ?_⟩
  rw [hstarts c, hstarts c', htail]

/-- **Sections.** Bodies and entry stream can be told from their texts. -/
theorem sections_inj (hc : ∀ i ∈ c, i.Legible) (hc' : ∀ i ∈ c', i.Legible) (h : ∀ body ∈ bodies, body.Legible)
    (h' : ∀ body ∈ bodies', body.Legible) (htexts : sections c bodies = sections c' bodies') :
    c = c' ∧ bodies = bodies' := by
  have hmain (body : LambdaBody ι) : "main:" ≠ signature body := by
    intro heq
    have hlist := congrArg String.toList heq
    rw [toList_signature] at hlist
    cases hlist
  induction bodies generalizing bodies' with
  | nil => cases bodies' with
    | nil =>
      simp only [sections, List.cons.injEq, true_and] at htexts
      exact ⟨codeTexts_inj hc hc' htexts, rfl⟩
    | cons body' bodies' =>
      simp only [sections, List.cons.injEq, true_and] at htexts
      exact absurd htexts.1 (hmain body')
  | cons body bodies ih => cases bodies' with
    | nil =>
      simp only [sections, List.cons.injEq, true_and] at htexts
      exact absurd htexts.1.symm (hmain body)
    | cons body' bodies' =>
      obtain ⟨hbody, h⟩ := List.forall_mem_cons.1 h
      obtain ⟨hbody', h'⟩ := List.forall_mem_cons.1 h'
      simp only [sections, List.cons.injEq, true_and] at htexts
      obtain ⟨hsignature, hlabel, hrest⟩ := htexts
      obtain ⟨hcode, hlater⟩ :=
        cut_sections (empty_notMem_codeTexts hbody.code) (empty_notMem_codeTexts hbody'.code) hrest
      obtain ⟨hentry, hbodies⟩ := ih h h' hlater
      obtain ⟨hparams, hcaptures⟩ := signature_inj hbody hbody' hsignature
      obtain ⟨label, params, captures, code⟩ := body
      obtain ⟨label', params', captures', code'⟩ := body'
      obtain rfl : label = label' := Label.colon_inj hlabel
      obtain rfl := codeTexts_inj hbody.code hbody'.code hcode
      obtain rfl : params = params' := hparams
      obtain rfl : captures = captures' := hcaptures
      exact ⟨hentry, congrArg _ hbodies⟩

omit [Operation ι] [Readable ι]

theorem globalsTexts_cons (b : Binding) (rest : List Binding) : globalsTexts (b :: rest) =
    ["; globals: " ++ String.intercalate ", " ((b :: rest).map Binding.listed)] := rfl

theorem globalsTexts_inj (h : ∀ b ∈ globals, b.Legible) (h' : ∀ b ∈ globals', b.Legible)
    (htexts : globalsTexts globals = globalsTexts globals') : globals = globals' := by
  cases globals with
  | nil => cases globals' with
    | nil => rfl
    | cons b' rest' => cases htexts
  | cons b rest => cases globals' with
    | nil => cases htexts
    | cons b' rest' =>
      rw [globalsTexts_cons, globalsTexts_cons] at htexts
      have hlist := congrArg String.toList (List.cons.inj htexts).1
      rw [String.toList_append, String.toList_append, List.append_right_inj] at hlist
      have htight {globals : List Binding} (h : ∀ b ∈ globals, b.Legible) : ∀ t ∈ globals.map Binding.listed, Tight t :=
        List.forall_mem_map.2 fun b hb => (h b hb).tight
      have hlisted := intercalate_inj (htight h) (htight h') (String.toList_inj.1 hlist)
      exact map_inj_on (fun b hb b' hb' => Binding.listed_inj (h b hb) (h' b' hb')) hlisted

theorem empty_notMem_globalsTexts (globals : List Binding) : "" ∉ globalsTexts globals := by
  cases globals with
  | nil => exact List.not_mem_nil
  | cons b rest =>
    rw [globalsTexts_cons, List.mem_singleton]
    intro hempty
    have hlist := congrArg String.toList hempty
    simp at hlist

end

/-! ## The whole text -/

variable [Readable ι] {p q : Program ι} {c : Code ι} {globals : List Binding} {bodies : List (LambdaBody ι)}

omit [Operation ι] [Readable ι] in
theorem feed_notMem_globalsTexts (h : ∀ b ∈ globals, b.Legible) : ∀ t ∈ globalsTexts globals, '\n' ∉ t.toList := by
  cases globals with
  | nil => exact List.forall_mem_nil _
  | cons b rest =>
    have hlisted : ∀ t ∈ (b :: rest).map Binding.listed, '\n' ∉ t.toList :=
      List.forall_mem_map.2 fun b hb => (h b hb).tight.feed
    rw [globalsTexts_cons, List.forall_mem_singleton, String.toList_append, List.mem_append, not_or]
    exact ⟨by decide, notMem_intercalate (by decide) (by decide) hlisted⟩

theorem feed_notMem_sections (hc : ∀ i ∈ c, i.Legible) (h : ∀ body ∈ bodies, body.Legible) :
    ∀ t ∈ sections c bodies, '\n' ∉ t.toList := by
  have hcode {c : Code ι} (hc : ∀ i ∈ c, i.Legible) : ∀ t ∈ codeTexts c, '\n' ∉ t.toList :=
    List.forall_mem_map.2 fun i hi => (Instr.line_proper (hc i hi)).2
  have hnames {names : List String} (h : ∀ x ∈ names, isName x) : '\n' ∉ (String.intercalate ", " names).toList :=
    notMem_intercalate (by decide) (by decide) fun x hx => (tight_of_isName (h x hx)).feed
  induction bodies with
  | nil => exact List.forall_mem_cons.2 ⟨by decide, List.forall_mem_cons.2 ⟨by decide, hcode hc⟩⟩
  | cons body bodies ih =>
    obtain ⟨hbody, h⟩ := List.forall_mem_cons.1 h
    have hsignature : '\n' ∉ (signature body).toList := by
      rw [toList_signature]
      simp [-String.toList_intercalate, hnames hbody.params, hnames hbody.captures]
    have hlabel : '\n' ∉ (body.label.text ++ ":").toList := by simp [hbody.label.tight.feed]
    rw [sections, List.forall_mem_cons, List.forall_mem_cons, List.forall_mem_cons, List.forall_mem_append]
    exact ⟨by decide, hsignature, hlabel, hcode hbody.code, ih h⟩

/-- no line of a listing goes over its end -/
theorem feed_notMem_listingLines (h : p.Legible) : ∀ l ∈ p.listingLines, '\n' ∉ l.text.toList := by
  have htexts : ∀ t ∈ p.listingLines.map Line.text, '\n' ∉ t.toList := by
    rw [map_text, List.forall_mem_cons, List.forall_mem_append]
    refine ⟨?_, feed_notMem_globalsTexts h.globals, feed_notMem_sections h.code h.bodies⟩
    cases Operation.machine ι <;> decide
  intro l hl
  exact htexts _ (List.mem_map_of_mem hl)

/-- **Listings.** Legible programs with the same listing are the same. -/
theorem listing_inj (hp : p.Legible) (hq : q.Legible) (h : p.listing = q.listing) : p = q := by
  have htexts := Line.render_inj (feed_notMem_listingLines hp) (feed_notMem_listingLines hq) h
  rw [map_text, map_text, List.cons.injEq] at htexts
  obtain ⟨hglobals, hsections⟩ :=
    cut_sections (empty_notMem_globalsTexts p.globals) (empty_notMem_globalsTexts q.globals) htexts.2
  obtain ⟨hcode, hbodies⟩ := sections_inj hp.code hq.code hp.bodies hq.bodies hsections
  obtain ⟨code, ⟨bodies⟩, globals⟩ := p
  obtain ⟨code', ⟨bodies'⟩, globals'⟩ := q
  obtain rfl : code = code' := hcode
  obtain rfl : bodies = bodies' := hbodies
  obtain rfl : globals = globals' := globalsTexts_inj hp.globals hq.globals hglobals
  rfl

end Program
end ThreeMachines
