/-
Paths beside each other.

`Path.At dir name p` says that `p` is written as a directory, up to its last slash, and a name in it. What a path means
is told by these two: its components (`At.components`) and the parts that a tree follows (`At.steps`). Changing the
extension of a path changes the name and nothing else (`At.withExtension`).
-/
import Mathlib.Tactic
import ThreeMachines.Build.Path

namespace ThreeMachines

namespace Text

variable {sep : Char} {xs ys : List Char}

theorem splitAt_of_notMem (h : sep ∉ xs) : splitAt sep xs = [xs] := by
  induction xs with
  | nil => rfl
  | cons c xs ih =>
    rw [List.mem_cons, not_or] at h
    rw [splitAt, if_neg (Ne.symm h.1), ih h.2]

theorem splitAt_append_cons (xs ys : List Char) : splitAt sep (xs ++ sep :: ys) = splitAt sep xs ++ splitAt sep ys := by
  induction xs with
  | nil => simp [splitAt]
  | cons c xs ih =>
    by_cases hc : c = sep
    · simp [splitAt, hc, ih]
    · have hne : splitAt sep xs ≠ [] := by
        cases xs with
        | nil => simp [splitAt]
        | cons d xs =>
          unfold splitAt
          split
          · exact List.cons_ne_nil _ _
          · split <;> exact List.cons_ne_nil _ _
      obtain ⟨part, parts, hparts⟩ := List.exists_cons_of_ne_nil hne
      rw [List.cons_append, splitAt, if_neg hc, ih, splitAt, if_neg hc, hparts]
      rfl

end Text

namespace Path

/-- the path is written as a directory, up to the last slash, and a name -/
structure At (dir name : List Char) (p : Path) : Prop where
  text : p.text.toList = dir ++ name
  slash : dir = [] ∨ ∃ above, dir = above ++ ['/']
  ne_nil : name ≠ []
  notMem : '/' ∉ name

/-- the parts of a directory -/
def front (dir : List Char) : List String := ((Text.splitAt '/' dir).dropLast).map String.ofList

/-- the components of a directory -/
def above (dir : List Char) : List Component :=
  (if dir.head? = some '/' then [.root] else if (front dir).head? = some "." then [.here] else []) ++
    (front dir).filterMap component?

variable {dir name : List Char} {p q : Path}

namespace At

theorem eq (h : At dir name p) (h' : At dir name q) : p = q := by
  cases p
  cases q
  exact congrArg Path.mk (String.toList_inj.1 (h.text.trans h'.text.symm))

theorem parts (h : At dir name p) : p.parts = front dir ++ [String.ofList name] := by
  rw [Path.parts, h.text, front]
  rcases h.slash with rfl | ⟨above, rfl⟩
  · rw [List.nil_append, Text.splitAt_of_notMem h.notMem]
    rfl
  · rw [List.append_assoc, List.singleton_append, Text.splitAt_append_cons, Text.splitAt_of_notMem h.notMem,
      Text.splitAt_append_cons]
    simp [Text.splitAt]

theorem isAbsolute (h : At dir name p) : p.isAbsolute = (dir.head? == some '/') := by
  rw [Bool.eq_iff_iff, Path.isAbsolute, String.startsWith_string_iff, h.text, beq_iff_eq]
  obtain ⟨c, cs, hname⟩ := List.exists_cons_of_ne_nil h.ne_nil
  have hc : c ≠ '/' := by
    rintro rfl
    exact h.notMem (hname ▸ List.mem_cons_self)
  cases dir with
  | nil => simp [hname, Ne.symm hc]
  | cons d dir => simp [eq_comm]

theorem components (h : At dir name p) (hdot : name ≠ ['.']) :
    p.components = above dir ++ [if name = ['.', '.'] then .parent else .name (String.ofList name)] := by
  have hne : String.ofList name ≠ "." := mt String.ofList_inj.1 hdot
  have hnil : String.ofList name ≠ "" := mt String.ofList_inj.1 h.ne_nil
  have hparent : String.ofList name = ".." ↔ name = ['.', '.'] := String.ofList_inj
  have hhead : (front dir ++ [String.ofList name]).head? = some "." ↔ (front dir).head? = some "." := by
    cases front dir <;> simp [hne]
  have hname : component? (String.ofList name) =
      some (if name = ['.', '.'] then .parent else .name (String.ofList name)) := by
    rw [component?, if_neg (by simp [hne, hnil])]
    by_cases hdots : name = ['.', '.']
    · rw [if_pos (hparent.2 hdots), if_pos hdots]
    · rw [if_neg (mt hparent.1 hdots), if_neg hdots]
  rw [Path.components, h.parts, h.isAbsolute, above, List.filterMap_append, List.append_assoc]
  simp only [hhead, hname, List.filterMap_cons, List.filterMap_nil, beq_iff_eq]

theorem fileName? (h : At dir name p) (hdot : name ≠ ['.']) :
    p.fileName? = if name = ['.', '.'] then none else some (String.ofList name) := by
  rw [Path.fileName?, h.components hdot, List.getLast?_append]
  by_cases hdots : name = ['.', '.']
  · simp [hdots]
  · simp [hdots]

/-- paths beside each other that are alike are the same path -/
theorem eq_of_alike {other : List Char} (h : At dir name p) (h' : At dir other q) (hdot : name ≠ ['.'])
    (hdot' : other ≠ ['.']) (halike : p.alike q = true) : name = other := by
  have hcomponents := of_decide_eq_true halike
  rw [h.components hdot, h'.components hdot', List.append_cancel_left_eq] at hcomponents
  by_cases hname : name = ['.', '.'] <;> by_cases hother : other = ['.', '.'] <;>
    simp_all [String.ofList_inj]

end At

theorem dropSlashes_of_at (h : At dir name p) (hdot : name ≠ ['.']) :
    dropSlashes p.text.toList.reverse = p.text.toList.reverse := by
  obtain ⟨c, cs, hname⟩ := List.exists_cons_of_ne_nil (mt List.reverse_eq_nil_iff.1 h.ne_nil)
  have hmem : ∀ d ∈ c :: cs, d ≠ '/' := by
    rintro d hd rfl
    exact h.notMem (List.mem_reverse.1 (hname ▸ hd))
  rw [h.text, List.reverse_append, hname]
  unfold dropSlashes
  split
  · rename_i heq
    exact absurd (List.cons.inj heq).1 (hmem c List.mem_cons_self)
  · rename_i rest heq
    cases cs with
    | nil =>
      obtain ⟨rfl, -⟩ := List.cons.inj heq
      exact absurd (List.reverse_eq_iff.1 hname) hdot
    | cons d cs =>
      obtain ⟨-, heq⟩ := List.cons.inj heq
      exact absurd (List.cons.inj heq).1 (hmem d (List.mem_cons_of_mem _ List.mem_cons_self))
  · rfl

/-! ## Extensions -/

/-- what follows a dot that is not the first character, with no dot after it, is the extension -/
theorem extensionOf?_append {s e : List Char} (hs : s ≠ []) (he : '.' ∉ e) :
    extensionOf? (String.ofList (s ++ '.' :: e)) = some (String.ofList e) := by
  have hrun : ∀ c ∈ e.reverse, decide (c ≠ '.') = true := by
    intro c hc
    exact decide_eq_true fun heq => he (heq ▸ List.mem_reverse.1 hc)
  obtain ⟨c, cs, hcs⟩ := List.exists_cons_of_ne_nil (mt List.reverse_eq_nil_iff.1 hs)
  have hreversed : (s ++ '.' :: e).reverse = e.reverse ++ '.' :: c :: cs := by simp [hcs]
  simp only [extensionOf?, String.toList_ofList, hreversed]
  rw [List.dropWhile_append_of_pos hrun, List.takeWhile_append_of_pos hrun]
  simp

theorem extensionOf?_cases (name : List Char) : extensionOf? (String.ofList name) = none ∨
    ∃ s e, s ≠ [] ∧ '.' ∉ e ∧ name = s ++ '.' :: e := by
  have hsplit : name.reverse.takeWhile (fun c => c ≠ '.') ++ name.reverse.dropWhile (fun c => c ≠ '.') = name.reverse :=
    List.takeWhile_append_dropWhile
  have hrun : '.' ∉ name.reverse.takeWhile fun c => c ≠ '.' := by
    intro hmem
    simpa using List.all_eq_true.1 List.all_takeWhile '.' hmem
  simp only [extensionOf?, String.toList_ofList]
  split
  · exact .inl rfl
  · exact .inl rfl
  · rename_i c d rest hdrop
    have hc : c = '.' := by
      have hhead := List.head?_dropWhile_not (fun c => decide (c ≠ '.')) name.reverse
      rw [hdrop] at hhead
      simpa using hhead
    rw [hdrop, hc] at hsplit
    have hname : name = (d :: rest).reverse ++ '.' :: (name.reverse.takeWhile fun c => c ≠ '.').reverse := by
      calc
        name = (name.reverse.takeWhile (fun c => c ≠ '.') ++ '.' :: d :: rest).reverse := by
          rw [hsplit, List.reverse_reverse]
        _ = _ := by rw [List.reverse_append, List.reverse_cons, List.append_assoc, List.singleton_append]
    exact .inr ⟨(d :: rest).reverse, _, by simp, mt List.mem_reverse.1 hrun, hname⟩

/-- what an extension adds to a path -/
def suffix (ext : String) : List Char := if ext = "" then [] else '.' :: ext.toList

theorem append_ne_dot {s t : List Char} (hs : s ≠ []) (hone : s ≠ ['.']) : s ++ t ≠ ['.'] := by
  intro heq
  rcases List.append_eq_singleton_iff.1 heq with ⟨hnil, -⟩ | ⟨hfirst, -⟩
  · exact hs hnil
  · exact hone hfirst

theorem withExtension_of_fileName? {file : String} (hfile : p.upToDot.fileName? = some file) (ext : String) :
    (p.withExtension ext).text.toList = p.upToDot.stem.toList ++ suffix ext := by
  delta withExtension
  simp only [hfile, String.toList_append]
  unfold suffix
  split
  · rfl
  · rw [String.toList_append]
    rfl

namespace At

theorem withExtension_parent (h : At dir ['.', '.'] p) (ext : String) : p.withExtension ext = p := by
  have hnone : p.fileName? = none := by rw [h.fileName? (by decide), if_pos rfl]
  have hbare : p.upToDot = p := by rw [upToDot, extension?, hnone, Option.bind_none]
  delta withExtension
  simp only [hbare, hnone]

/-- the stem of a path in a directory -/
theorem stem (h : At dir name p) (hdot : name ≠ ['.']) : p.stem.toList =
    match p.extension? with
    | some ext => (p.text.toList.reverse.drop (ext.length + 1)).reverse
    | none => dir ++ name := by
  rw [Path.stem, dropSlashes_of_at h hdot]
  cases p.extension? with
  | none => simp [h.text]
  | some ext => exact String.toList_ofList

/-- what another extension leaves of a name: two dots, if the name is these and an extension, and else some front of it
that is the same for all extensions -/
theorem withExtension (h : At dir name p) (hdot : name ≠ ['.']) : (∀ ext, At dir ['.', '.'] (p.withExtension ext)) ∨
    ∃ s, s ≠ [] ∧ s ≠ ['.'] ∧ '/' ∉ s ∧ ∀ ext, (p.withExtension ext).text.toList = dir ++ (s ++ suffix ext) := by
  by_cases hdots : name = ['.', '.']
  · subst hdots
    exact .inl fun ext => by rwa [h.withExtension_parent]
  have hfile : p.fileName? = some (String.ofList name) := by rw [h.fileName? hdot, if_neg hdots]
  cases hext : extensionOf? (String.ofList name) with
  | none =>
    have hbare : p.upToDot = p := by rw [upToDot, extension?, hfile, Option.bind_some, hext]
    refine .inr ⟨name, h.ne_nil, hdot, h.notMem, fun ext => ?_⟩
    rw [withExtension_of_fileName? (hbare.symm ▸ hfile), hbare, h.stem hdot, extension?, hfile, Option.bind_some, hext,
      List.append_assoc]
  | some found =>
    obtain hnone | ⟨s, e, hs, he, rfl⟩ := extensionOf?_cases name
    · cases hext.symm.trans hnone
    obtain rfl : String.ofList e = found := Option.some.inj ((extensionOf?_append hs he).symm.trans hext)
    have hslash : '/' ∉ s := fun hmem => h.notMem (List.mem_append_left _ hmem)
    have hbare : At dir (s ++ ['.']) p.upToDot := by
      refine ⟨?_, h.slash, by simp, by simp [hslash]⟩
      have hlength : p.text.length - (String.ofList e).length = (dir ++ (s ++ ['.'])).length := by
        rw [← String.length_toList, h.text, String.length_ofList]
        simp only [List.length_append, List.length_cons, List.length_nil]
        omega
      have htext : p.text.toList = dir ++ (s ++ ['.']) ++ e := by
        rw [h.text]
        simp
      rw [upToDot, extension?, hfile, Option.bind_some, hext]
      simp only
      rw [hlength, htext, List.take_left, String.toList_ofList]
    by_cases hone : s = ['.']
    · subst hone
      left
      intro ext
      replace hbare : At dir ['.', '.'] p.upToDot := hbare
      have hnone : p.upToDot.fileName? = none := by rw [hbare.fileName? (by decide), if_pos rfl]
      delta Path.withExtension
      simp only [hnone]
      exact hbare
    · right
      have hbareFile := hbare.fileName? (by simp [hs])
      have hne : s ++ ['.'] ≠ ['.', '.'] := fun heq =>
        hone (List.append_cancel_right (heq : s ++ ['.'] = ['.'] ++ ['.']))
      rw [if_neg hne] at hbareFile
      refine ⟨s, hs, hone, hslash, fun ext => ?_⟩
      rw [withExtension_of_fileName? hbareFile, hbare.stem (by simp [hs]), extension?, hbareFile, Option.bind_some,
        extensionOf?_append hs List.not_mem_nil, hbare.text]
      simp

theorem of_suffix (h : At dir name p) {s : List Char} {ext : String} (hs : s ≠ []) (hslash : '/' ∉ s)
    (hext : '/' ∉ ext.toList) (htext : q.text.toList = dir ++ (s ++ suffix ext)) : At dir (s ++ suffix ext) q := by
  refine ⟨htext, h.slash, by simp [hs], ?_⟩
  unfold suffix
  split
  · simpa using hslash
  · simp [hslash, hext]

/-- with another extension, a path stays beside where it was -/
theorem exists_withExtension (h : At dir name p) (hdot : name ≠ ['.']) {ext : String} (hext : '/' ∉ ext.toList) :
    ∃ other, other ≠ ['.'] ∧ At dir other (p.withExtension ext) := by
  rcases h.withExtension hdot with hparent | ⟨s, hs, hone, hslash, htext⟩
  · exact ⟨_, by decide, hparent ext⟩
  · exact ⟨s ++ suffix ext, append_ne_dot hs hone, h.of_suffix hs hslash hext (htext ext)⟩

/-- a path with a name has the extension that it was given, from the last dot on -/
theorem extension?_withExtension (h : At dir name p) (hdot : name ≠ ['.']) {ext : String} {front e : List Char}
    (hext : suffix ext = front ++ '.' :: e) (he : '.' ∉ e) (hslash : '/' ∉ ext.toList) :
    (p.withExtension ext).fileName? = none ∨ (p.withExtension ext).extension? = some (String.ofList e) := by
  rcases h.withExtension hdot with hparent | ⟨s, hs, -, hs', htext⟩
  · left
    rw [(hparent ext).fileName? (by decide), if_pos rfl]
  · have hat := h.of_suffix hs hs' hslash (htext ext)
    rw [hext, ← List.append_assoc] at hat
    have hfile := hat.fileName? (by cases s <;> simp_all)
    split at hfile
    · exact .inl hfile
    · right
      rw [extension?, hfile, Option.bind_some]
      exact extensionOf?_append (by simp [hs]) he

end At

/-- a path that can be a file's has a name at its end -/
theorem exists_at (hne : p.text ≠ "") (hend : p.endsInSlash = false) : ∃ dir name, At dir name p := by
  obtain ⟨c, cs, hreverse⟩ := List.exists_cons_of_ne_nil
    (mt List.reverse_eq_nil_iff.1 fun hnil : p.text.toList = [] => hne (String.toList_inj.1 hnil))
  have hc : c ≠ '/' := by
    rintro rfl
    rw [endsInSlash, ← String.endsWith_toSlice, String.Slice.endsWith_string_eq_false_iff] at hend
    refine hend ⟨cs.reverse, ?_⟩
    rw [String.copy_toSlice, ← List.reverse_inj, hreverse]
    simp
  have hsplit : p.text.toList.reverse.takeWhile (fun d => d ≠ '/') ++
      p.text.toList.reverse.dropWhile (fun d => d ≠ '/') = p.text.toList.reverse := List.takeWhile_append_dropWhile
  refine ⟨(p.text.toList.reverse.dropWhile fun d => d ≠ '/').reverse,
    (p.text.toList.reverse.takeWhile fun d => d ≠ '/').reverse, ?_, ?_, ?_, ?_⟩
  · rw [← List.reverse_append, hsplit, List.reverse_reverse]
  · cases hdrop : p.text.toList.reverse.dropWhile fun d => d ≠ '/' with
    | nil => exact .inl rfl
    | cons d ds =>
      have hhead := List.head?_dropWhile_not (fun d => decide (d ≠ '/')) p.text.toList.reverse
      rw [hdrop] at hhead
      obtain rfl : d = '/' := by simpa using hhead
      exact .inr ⟨ds.reverse, by simp⟩
  · simp [hreverse, hc]
  · intro hmem
    simpa using List.all_eq_true.1 List.all_takeWhile '/' (List.mem_reverse.1 hmem)

end Path

end ThreeMachines
