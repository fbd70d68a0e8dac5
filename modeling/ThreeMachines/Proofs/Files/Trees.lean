/-
What a change of a directory tree leaves as it was.

A path is followed through directories only, so a change at a place that is no directory does not lead it elsewhere:
`Spares home t t'` says that the directories of `t` are directories of `t'`, and that at `home` stands what stood there.
Writing, removing and the change that a tool makes spare all places but the one that the path leads to. Two paths beside
each other, with different names, lead to different places (`resolve_ne`), so what is done to one does not change what
is read at the other (`read_write`, `read_remove`, `read_change`).
-/
import ThreeMachines.Build.Workspace
import ThreeMachines.Proofs.Files.Paths

namespace ThreeMachines

namespace Location

variable {location : Location} {name other : String}

theorem follow_name (hdot : name ≠ ".") (hparent : name ≠ "..") :
    location.follow name = ⟨location.base, location.names ++ [name]⟩ := by
  unfold follow
  split
  · exact absurd rfl hdot
  · exact absurd rfl hparent
  · rfl

/-- a name leads where no other name leads -/
theorem follow_ne (hdot : name ≠ ".") (hparent : name ≠ "..") (hne : other ≠ name) :
    location.follow other ≠ location.follow name := by
  intro heq
  rw [follow_name hdot hparent] at heq
  have hnames := congrArg Location.names heq
  by_cases hother : other = "." ∨ other = ".."
  · have hle : (location.follow other).names.length ≤ location.names.length := by
      rcases hother with rfl | rfl
      · exact le_rfl
      · obtain ⟨base, names⟩ := location
        cases base <;> cases names <;> simp [follow]
    rw [hnames] at hle
    simp at hle
  · rw [not_or] at hother
    rw [follow_name hother.1 hother.2] at hnames
    exact hne (List.cons.inj (List.append_cancel_left hnames)).1

end Location

namespace Tree

/-- the directories of `t` are directories of `t'` -/
def Within (t t' : Tree) : Prop :=
  ∀ location, t.entry? location = some .directory → t'.entry? location = some .directory

/-- the directories are still there, and at `home` stands what stood there -/
structure Spares (home : Location) (t t' : Tree) : Prop where
  within : Within t t'
  home : t'.entry? home = t.entry? home

variable {home location : Location} {t t' : Tree} {p q file : Path} {bytes : ByteArray} {dir name other : List Char}

theorem lookup_filter_ne (entries : List (Location × Entry)) (h : location ≠ home) :
    (entries.filter fun entry => entry.1 ≠ location).lookup home = entries.lookup home := by
  induction entries with
  | nil => rfl
  | cons entry entries ih =>
    by_cases hentry : entry.1 = location
    · have hhome : (home == entry.1) = false := by simpa [hentry] using Ne.symm h
      rw [List.filter_cons_of_neg (by simpa using hentry), ih, List.lookup_cons, hhome]
    · rw [List.filter_cons_of_pos (by simpa using hentry), List.lookup_cons, List.lookup_cons, ih]

theorem entry?_put_ne (h : location ≠ home) : entry? (t.put location bytes) home = t.entry? home := by
  have hhome : (home == location) = false := by simpa using Ne.symm h
  rw [ entry?, entry?, put, List.lookup_cons, hhome, lookup_filter_ne _ h]

theorem entry?_erase_ne (h : location ≠ home) : entry? (t.erase location) home = t.entry? home := by
  rw [ entry?, entry?, erase, lookup_filter_ne _ h]

theorem Spares.refl (home : Location) (t : Tree) : Spares home t t := ⟨fun _ h => h, rfl⟩

theorem spares_put (hentry : t.entry? location ≠ some .directory) (h : location ≠ home) :
    Spares home t (t.put location bytes) where
  within other hother := by
    rwa [ entry?_put_ne]
    rintro rfl
    exact hentry hother
  home := entry?_put_ne h

theorem lookup_filter_self (entries : List (Location × Entry)) :
    (entries.filter fun entry => entry.1 ≠ location).lookup location = none := by
  rw [List.lookup_eq_none_iff]
  intro entry hentry
  have hne : entry.1 ≠ location := of_decide_eq_true (List.mem_filter.1 hentry).2
  simpa using Ne.symm hne

/-- where something was taken away, there is at most the directory that a tree starts from -/
theorem entry?_erase_self (t : Tree) (location : Location) : entry? (t.erase location) location = none ∨
    ∀ t' : Tree, t'.entry? location = some .directory := by
  by_cases hnames : location.names.isEmpty = true
  · exact .inr fun t' => by rw [ entry?, if_pos hnames]
  · left
    rw [ entry?, if_neg hnames, erase, lookup_filter_self]

/-- taking something away makes no directory -/
theorem within_of_erase : Within (t.erase location) t := by
  intro other hother
  by_cases h : location = other
  · subst h
    rcases entry?_erase_self t location with hnone | hstart
    · cases hnone.symm.trans hother
    · exact hstart t
  · rwa [ entry?_erase_ne h] at hother

theorem within_erase (hentry : t.entry? location ≠ some .directory) : Within t (t.erase location) := by
  intro other hother
  rwa [ entry?_erase_ne]
  rintro rfl
  exact hentry hother

theorem spares_erase (hentry : t.entry? location ≠ some .directory) (h : location ≠ home) :
    Spares home t (t.erase location) := ⟨within_erase hentry, entry?_erase_ne h⟩

/-! ## Following a path -/

theorem step_of_within (h : Within t t') {part : String} {next : Location} (hstep : t.step location part = .ok next) :
    t'.step location part = .ok next := by
  unfold step look at hstep ⊢
  split at hstep
  · cases hstep
  · rename_i hshort
    rw [if_neg hshort]
    cases hentry : t.entry? location with
    | none =>
      rw [hentry] at hstep
      cases hstep
    | some entry =>
      rw [hentry] at hstep
      cases entry with
      | directory =>
        rw [h location hentry]
        exact hstep
      | file | sink => cases hstep

theorem foldlM_of_within (h : Within t t') {parts : List String} {final : Location}
    (hsteps : parts.foldlM t.step location = .ok final) : parts.foldlM t'.step location = .ok final := by
  induction parts generalizing location with
  | nil => exact hsteps
  | cons part parts ih =>
    rw [List.foldlM_cons] at hsteps ⊢
    cases hstep : t.step location part with
    | error e =>
      rw [hstep] at hsteps
      cases hsteps
    | ok next =>
      rw [hstep] at hsteps
      rw [step_of_within h hstep]
      exact ih hsteps

theorem resolve_of_within (h : Within t t') (hp : t.resolve p = .ok location) : t'.resolve p = .ok location := by
  unfold resolve at hp ⊢
  split at hp
  · cases hp
  · rename_i hzero
    rw [if_neg hzero]
    split at hp
    · cases hp
    · rename_i hempty
      rw [if_neg hempty]
      split at hp
      · cases hp
      · rename_i hlong
        rw [if_neg hlong]
        exact foldlM_of_within h hp

theorem exists_resolve_of_read (hread : t.read p = .ok bytes) : ∃ location, t.resolve p = .ok location := by
  cases hp : t.resolve p with
  | ok location => exact ⟨location, rfl⟩
  | error e =>
    rw [read, find, hp] at hread
    cases hread

/-- what is read at a place that is spared -/
theorem read_of_spares (h : Spares home t t') (hp : t.resolve p = .ok home) (hread : t.read p = .ok bytes) :
    t'.read p = .ok bytes := by
  have hlook : t'.look home = t.look home := by rw [look, look, h.home]
  rw [read, find, hp] at hread
  rw [read, find, resolve_of_within h.within hp]
  simp only [bind, Except.bind] at hread ⊢
  rw [hlook]
  exact hread

theorem entry?_of_look {entry : Option Entry} (h : t.look location = .ok entry) : t.entry? location = entry := by
  unfold look at h
  split at h
  · cases h
  · exact Except.ok.inj h

/-! ## Changes -/

theorem spares_write (hne : ∀ location, t.resolve p = .ok location → location ≠ home)
    (hwrite : t.write p bytes = .ok t') : Spares home t t' := by
  cases hp : t.resolve p with
  | error e =>
    rw [write, hp] at hwrite
    cases hwrite
  | ok location =>
    rw [write, hp] at hwrite
    simp only [bind, Except.bind] at hwrite
    split at hwrite
    · cases hwrite
    · cases hlook : t.look location with
      | error e =>
        rw [hlook] at hwrite
        cases hwrite
      | ok entry =>
        rw [hlook] at hwrite
        have hentry := entry?_of_look hlook
        cases entry with
        | none =>
          cases hwrite
          exact spares_put (by simp [hentry]) (hne location hp)
        | some entry =>
          cases entry with
          | file =>
            cases hwrite
            exact spares_put (by simp [hentry]) (hne location hp)
          | directory => cases hwrite
          | sink =>
            cases hwrite
            exact .refl home t

/-- only what is a file is removed -/
theorem entry?_of_isFile (hfile : t.isFile p = true) (hp : t.resolve p = .ok location) :
    t.entry? location ≠ some .directory := by
  intro hentry
  unfold isFile find at hfile
  rw [hp] at hfile
  simp only [bind, Except.bind] at hfile
  cases hlook : t.look location with
  | error e =>
    rw [hlook] at hfile
    cases hfile
  | ok entry =>
    obtain rfl := ( entry?_of_look hlook).symm.trans hentry
    rw [hlook] at hfile
    cases hfile

theorem spares_remove (hne : ∀ location, t.resolve p = .ok location → location ≠ home) :
    Spares home t (t.remove p) := by
  unfold remove
  split
  · rename_i location hp
    split
    · rename_i hfile
      exact spares_erase ( entry?_of_isFile hfile hp) (hne location hp)
    · exact .refl home t
  · exact .refl home t

theorem spares_change (hne : ∀ location, t.resolve p = .ok location → location ≠ home) (change : OutputChange) :
    Spares home t (t.change p change) := by
  cases change with
  | keep => exact .refl home t
  | remove => exact spares_remove hne
  | write bytes =>
    cases hwrite : t.write p bytes with
    | ok t' =>
      simp only [Tree.change, hwrite]
      exact spares_write hne hwrite
    | error e =>
      simp only [Tree.change, hwrite]
      exact .refl home t

/-! ## Files -/

theorem isFile_iff : t.isFile p = true ↔ ∃ location bytes, t.resolve p = .ok location ∧
    t.look location = .ok (some (.file bytes)) ∧ p.endsInSlash = false := by
  unfold isFile find
  cases hp : t.resolve p with
  | error e => simp [bind, Except.bind]
  | ok location =>
    simp only [bind, Except.bind, Except.ok.injEq, exists_and_left, exists_eq_left']
    cases hlook : t.look location with
    | error e => simp
    | ok entry =>
      cases entry with
      | none => simp
      | some entry => cases entry <;> cases hend : p.endsInSlash <;> simp [pure, Except.pure]

/-- where something was taken away is no file -/
theorem ne_of_look_erase {final : Location} (h : (t.erase location).look final = .ok (some (.file bytes))) :
    location ≠ final := by
  rintro rfl
  have hentry := entry?_of_look h
  rcases entry?_erase_self t location with hnone | hstart
  · cases hnone.symm.trans hentry
  · cases (hstart _).symm.trans hentry

/-- removing makes no file -/
theorem isFile_of_remove (h : (t.remove p).isFile q = true) : t.isFile q = true := by
  unfold remove at h
  split at h
  · rename_i location hp
    split at h
    · obtain ⟨final, bytes, hq, hlook, hend⟩ := isFile_iff.1 h
      have hne := ne_of_look_erase hlook
      rw [look, entry?_erase_ne hne] at hlook
      exact isFile_iff.2 ⟨final, bytes, resolve_of_within within_of_erase hq, hlook, hend⟩
    · exact h
  · exact h

/-- what is removed is no file any more -/
theorem isFile_remove_self : (t.remove p).isFile p = false := by
  rw [Bool.eq_false_iff]
  intro h
  have hfile := isFile_of_remove h
  obtain ⟨location, bytes, hp, -⟩ := isFile_iff.1 hfile
  unfold remove at h
  rw [hp] at h
  dsimp only at h
  rw [if_pos hfile] at h
  obtain ⟨final, bytes', hfinal, hlook, -⟩ := isFile_iff.1 h
  have hsame := resolve_of_within (within_erase ( entry?_of_isFile hfile hp)) hp
  obtain rfl := Except.ok.inj (hsame.symm.trans hfinal)
  exact ne_of_look_erase hlook rfl

/-! ## Paths beside each other -/

theorem eq_follow_of_step {part : String} {next : Location} (hstep : t.step location part = .ok next) :
    t.entry? location = some .directory ∧ next = location.follow part := by
  unfold step at hstep
  cases hlook : t.look location with
  | error e =>
    rw [hlook] at hstep
    cases hstep
  | ok entry =>
    rw [hlook] at hstep
    simp only [bind, Except.bind] at hstep
    split at hstep
    · exact ⟨ entry?_of_look hlook, (Except.ok.inj hstep).symm⟩
    · cases hstep
    · cases hstep

/-- a path is followed to its directory, and from there by its name -/
theorem exists_directory (h : Path.At dir name p) (hp : t.resolve p = .ok location) : ∃ directory,
    ((Path.front dir).filter fun part => part ≠ "").foldlM t.step
      (if dir.head? = some '/' then ⟨.root, []⟩ else .inside []) = .ok directory ∧
    t.entry? directory = some .directory ∧ location = directory.follow (String.ofList name) := by
  have hname : String.ofList name ≠ "" := mt String.ofList_inj.1 h.ne_nil
  unfold resolve at hp
  split at hp
  · cases hp
  · split at hp
    · cases hp
    · split at hp
      · cases hp
      · rw [h.parts, h.isAbsolute, List.filter_append, List.filter_cons_of_pos (by simpa using hname), List.filter_nil,
          List.foldlM_append] at hp
        simp only [beq_iff_eq] at hp
        cases hdirectory : ((Path.front dir).filter fun part => part ≠ "").foldlM t.step
            (if dir.head? = some '/' then ⟨.root, []⟩ else .inside []) with
        | error e =>
          rw [hdirectory] at hp
          cases hp
        | ok directory =>
          rw [hdirectory] at hp
          have hstep : (t.step directory (String.ofList name) >>= pure) = .ok location := hp
          rw [bind_pure] at hstep
          exact ⟨directory, rfl, eq_follow_of_step hstep⟩

theorem resolve_ne (hfile : Path.At dir name file) (hp : Path.At dir other p) (hdot : name ≠ ['.'])
    (hparent : name ≠ ['.', '.']) (hne : other ≠ name) (hhome : t.resolve file = .ok home)
    (hlocation : t.resolve p = .ok location) : location ≠ home := by
  obtain ⟨directory, hdirectory, -, rfl⟩ := exists_directory hfile hhome
  obtain ⟨directory', hdirectory', -, rfl⟩ := exists_directory hp hlocation
  obtain rfl := Except.ok.inj (hdirectory'.symm.trans hdirectory)
  exact Location.follow_ne (mt String.ofList_inj.1 hdot) (mt String.ofList_inj.1 hparent) (mt String.ofList_inj.1 hne)

/-- a change at one path does not change what is read at a path beside it -/
theorem spares_beside (hfile : Path.At dir name file) (hp : Path.At dir other p) (hdot : name ≠ ['.'])
    (hparent : name ≠ ['.', '.']) (hne : other ≠ name) (hread : t.read file = .ok bytes)
    (hspares : ∀ home, (∀ location, t.resolve p = .ok location → location ≠ home) → Spares home t t') :
    t'.read file = .ok bytes := by
  obtain ⟨home, hhome⟩ := exists_resolve_of_read hread
  have hapart := hspares home fun location => resolve_ne hfile hp hdot hparent hne hhome
  exact read_of_spares hapart hhome hread

/-- a file is no directory, and its path does not end in a slash -/
theorem entry?_of_read (hread : t.read p = .ok bytes) (hp : t.resolve p = .ok location) :
    t.entry? location ≠ some .directory ∧ p.endsInSlash = false := by
  rw [read, find, hp] at hread
  simp only [bind, Except.bind] at hread
  cases hlook : t.look location with
  | error e =>
    rw [hlook] at hread
    cases hread
  | ok entry =>
    rw [hlook] at hread
    rw [ entry?_of_look hlook]
    cases entry with
    | none => cases hread
    | some entry =>
      cases entry with
      | directory => cases hread
      | file | sink =>
        cases hend : p.endsInSlash with
        | true => simp [hend] at hread
        | false => exact ⟨by simp, rfl⟩

/-- what can be read stands in a directory, under a name other than a dot -/
theorem exists_at_of_read (hread : t.read file = .ok bytes) : ∃ dir name, Path.At dir name file ∧ name ≠ ['.'] := by
  obtain ⟨location, hlocation⟩ := exists_resolve_of_read hread
  obtain ⟨hentry, hend⟩ := entry?_of_read hread hlocation
  have hne : file.text ≠ "" := by
    intro hempty
    unfold resolve at hlocation
    simp [hempty] at hlocation
  obtain ⟨dir, name, hat⟩ := Path.exists_at hne hend
  refine ⟨dir, name, hat, ?_⟩
  rintro rfl
  obtain ⟨directory, -, hdirectory, rfl⟩ := exists_directory hat hlocation
  exact hentry hdirectory

end Tree

end ThreeMachines
