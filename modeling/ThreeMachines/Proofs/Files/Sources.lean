/-
Building a source without a named output.

The output stands beside the source (`defaultOutput`) and so do the intermediate files of the build (`madeOnTheWay`), all
under names of their own; the output is never the source. So the source is what it was after the command, whatever the
command and its tools came to, unless an intermediate file has its name (`source_kept`).

An intermediate file can have its name: only one that ends in `s` or `o`, and only where an object file or an executable
is made (`stage_of_mem_madeOnTheWay`). Then the assembly text is written over the source, and with the intermediate files
the source is removed (`source_lost`, `source_erased`).

`Preserves P x` says that the work `x` keeps `P`, and `Immune P p` that nothing that is done to `p` breaks it; a build does
something to its output and its intermediate files and to nothing else (`preserves_run`).
-/
import ThreeMachines.Command.Run
import ThreeMachines.Proofs.Files.Trees
import ThreeMachines.Proofs.Generation

namespace ThreeMachines

/-- work after which `P` holds, if it did before -/
def Preserves {α : Type} (P : Workspace → Prop) (x : WorkspaceM α) : Prop := ∀ w, P w → P (x w).2

/-- work after which `P` holds -/
def Ensures {α : Type} (P : Workspace → Prop) (x : WorkspaceM α) : Prop := ∀ w, P (x w).2

/-- whatever is done to the path, `P` stays true -/
def Immune (P : Workspace → Prop) (p : Path) : Prop :=
  ∀ w change, P w → P { w with tree := w.tree.change p change }

/-- the file has these bytes -/
def Has (file : Path) (bytes : ByteArray) (w : Workspace) : Prop := w.tree.read file = .ok bytes

/-- there is no such file -/
def Gone (file : Path) (w : Workspace) : Prop := w.tree.isFile file = false

section
variable {α β ε : Type} {P : Workspace → Prop} {p : Path}

namespace Preserves

theorem pure (a : α) : Preserves P (Pure.pure a) := fun _ h => h

theorem bind {x : WorkspaceM α} {f : α → WorkspaceM β} (hx : Preserves P x) (hf : ∀ a, Preserves P (f a)) :
    Preserves P (x >>= f) :=
  fun w h => hf _ _ (hx w h)

/-- the same for work that can fail -/
theorem andThen {x : ExceptT ε WorkspaceM α} {f : α → ExceptT ε WorkspaceM β} (hx : Preserves P x.run)
    (hf : ∀ a, Preserves P (f a).run) : Preserves P (x >>= f).run := by
  rw [ExceptT.run_bind]
  refine hx.bind fun r => ?_
  cases r with
  | ok a => exact hf a
  | error e => exact pure _

/-- the same, with what the first part gives at these files -/
theorem andThen_at {x : ExceptT ε WorkspaceM α} {f : α → ExceptT ε WorkspaceM β} {w : Workspace}
    (hx : P (x.run w).2) (hf : ∀ a, (x.run w).1 = .ok a → Preserves P (f a).run) :
    P ((x >>= f).run w).2 := by
  have hbind {γ : Type} (y : WorkspaceM γ) (g : γ → WorkspaceM (Except ε β)) : (y >>= g) w = g (y w).1 (y w).2 := rfl
  rw [ExceptT.run_bind, hbind]
  cases hr : (x.run w).1 with
  | ok a => exact hf a hr _ hx
  | error e => exact hx

theorem lift {x : WorkspaceM α} (hx : Preserves P x) : Preserves P (ExceptT.lift x : ExceptT ε WorkspaceM α).run :=
  hx.bind fun a => pure (Except.ok a)

theorem throw (e : ε) : Preserves P (MonadExcept.throw e : ExceptT ε WorkspaceM α).run := fun _ h => h

end Preserves

/-- what every property survives changes nothing -/
theorem unchanged {x : WorkspaceM α} (h : ∀ P, Preserves P x) (w : Workspace) : (x w).2 = w := h (fun w' => w' = w) w rfl

theorem Ensures.bind {x : WorkspaceM α} {f : α → WorkspaceM β} (hf : ∀ a, Ensures P (f a)) : Ensures P (x >>= f) :=
  fun _ => hf _ _

theorem Ensures.andThen {x : WorkspaceM α} {f : α → WorkspaceM β} (hx : Ensures P x) (hf : ∀ a, Preserves P (f a)) :
    Ensures P (x >>= f) :=
  fun w => hf _ _ (hx w)

/-! ## Reading changes nothing -/

theorem preserves_readText : Preserves P (readText p : WorkspaceM (Except FileError String)) := by
  unfold readText
  refine Preserves.bind (fun w h => h) fun r => ?_
  cases r with
  | error e => exact .pure _
  | ok bytes =>
    dsimp only
    split <;> exact .pure _

theorem Command.preserves_readOr (describe : FileError → List String) :
    Preserves P (readOr describe p : Work WorkspaceM String).run := by
  unfold readOr
  refine Preserves.andThen preserves_readText.lift fun r => ?_
  cases r with
  | ok text => exact .pure _
  | error e => exact .throw _

theorem Command.preserves_readConfig : Preserves P (readConfig p : Work WorkspaceM Config).run := by
  unfold readConfig
  refine Preserves.andThen (preserves_readOr _) fun text => ?_
  split
  · exact .pure _
  · exact .throw _

theorem Command.preserves_loadConfig (explicit : Option Path) :
    Preserves P (loadConfig explicit : Work WorkspaceM Config).run := by
  unfold loadConfig
  split
  · exact preserves_readConfig
  · refine Preserves.andThen (Preserves.lift fun w h => h) fun found => ?_
    split
    · exact preserves_readConfig
    · exact .pure _

theorem Command.preserves_readProgram : Preserves P (readProgram p : Work WorkspaceM Expr).run := by
  unfold readProgram
  refine Preserves.andThen (preserves_readOr _) fun text => ?_
  split
  · exact .pure _
  · exact .throw _

/-! ## A build does something to its output and its intermediate files -/

namespace Build

/-- the intermediate files on the way to an output -/
def intermediates : Stage → Path → List Path
  | .ir, _ | .asm, _ => []
  | .obj, output => [intermediate output "s"]
  | .exe, output => [intermediate output "s", intermediate output "o"]

theorem mem_intermediates {stage : Stage} {output : Path} : p ∈ intermediates stage output ↔
    p = intermediate output "s" ∧ (stage = .obj ∨ stage = .exe) ∨ p = intermediate output "o" ∧ stage = .exe := by
  cases stage <;> simp [intermediates]

theorem write_apply (p : Path) (text : String) (w : Workspace) :
    (Host.write p text : WorkspaceM (Except FileError Unit)) w =
    match w.tree.write p text.toUTF8 with
    | .ok tree => (.ok (), { w with tree })
    | .error e => (.error e, w) := by
  show (match w.tree.write p text.toUTF8 with
    | .ok tree => do
      set { w with tree }
      return .ok ()
    | .error e => return .error e : WorkspaceM (Except FileError Unit)) w = _
  cases w.tree.write p text.toUTF8 with
  | ok tree => rfl
  | error e => rfl

theorem preserves_write (hp : Immune P p) (text : String) :
    Preserves P (Host.write p text : WorkspaceM (Except FileError Unit)) := by
  intro w h
  have hchange := hp w (.write text.toUTF8) h
  rw [write_apply]
  rw [Tree.change] at hchange
  split <;> simp_all

theorem preserves_writeText (hp : Immune P p) (text : String) :
    Preserves P (writeText p text : Action WorkspaceM Unit).run := by
  refine Preserves.bind (preserves_write hp text) fun r => ?_
  cases r with
  | ok _ => exact .pure _
  | error e => exact .pure _

theorem preserves_runTool (hp : Immune P p) (tool : String) (args : List String) :
    Preserves P (runTool tool args p : Action WorkspaceM Unit).run := by
  unfold runTool
  refine Preserves.andThen (Preserves.lift fun w h => hp w _ h) fun outcome => ?_
  cases outcome with
  | succeeded => exact .pure _
  | notStarted reason => exact .throw _
  | failed status detail => exact .throw _

theorem preserves_cleanUp (tools : Toolchain) {paths : List Path} (hpaths : ∀ p ∈ paths, Immune P p) :
    Preserves P (cleanUp tools paths : WorkspaceM Unit) := by
  unfold cleanUp
  split
  · exact .pure _
  · induction paths with
    | nil => exact .pure _
    | cons p paths ih =>
      obtain ⟨hp, hpaths⟩ := List.forall_mem_cons.1 hpaths
      exact Preserves.bind (fun w h => hp w .remove h) fun _ => ih hpaths

/-- with the intermediate files, one of them is removed -/
theorem ensures_cleanUp {tools : Toolchain} {paths : List Path} (hkeep : tools.keepIntermediates = false)
    (hp : p ∈ paths) : Ensures (Gone p) (cleanUp tools paths : WorkspaceM Unit) := by
  have hother (q : Path) : Preserves (Gone p) (Host.remove q : WorkspaceM Unit) := by
    intro w hgone
    exact Bool.eq_false_iff.2 fun hfile => Bool.eq_false_iff.1 hgone (Tree.isFile_of_remove hfile)
  unfold cleanUp
  rw [if_neg (by simp [hkeep])]
  induction paths with
  | nil => cases hp
  | cons q paths ih =>
    rcases List.mem_cons.1 hp with rfl | hp
    · have hself : Ensures (Gone p) (Host.remove p : WorkspaceM Unit) := fun w => Tree.isFile_remove_self
      have hlater : Preserves (Gone p) (paths.forM Host.remove : WorkspaceM Unit) := by
        clear ih hp
        induction paths with
        | nil => exact .pure _
        | cons q paths ih => exact (hother q).bind fun _ => ih
      exact hself.andThen fun _ => hlater
    · exact Ensures.bind fun _ => ih hp

theorem preserves_makeObject (tools : Toolchain) (assembly : String) {source object : Path} (hsource : Immune P source)
    (hobject : Immune P object) : Preserves P (makeObject tools assembly source object : Action WorkspaceM Unit).run :=
  Preserves.andThen (preserves_writeText hsource assembly) fun _ => preserves_runTool hobject _ _

theorem preserves_run (m : Machine) (tools : Toolchain) (e : Expr) (stage : Stage) {output : Path}
    (houtput : Immune P output) (hpaths : ∀ p ∈ intermediates stage output, Immune P p) :
    Preserves P (run m tools e stage output : Action WorkspaceM Unit).run := by
  unfold run
  refine Preserves.andThen (fun w h => h) fun p => ?_
  cases stage with
  | ir => exact preserves_writeText houtput _
  | asm => exact preserves_writeText houtput _
  | obj =>
    have hsource : Immune P (intermediate output "s") := hpaths _ (by simp [intermediates])
    refine Preserves.andThen (preserves_makeObject tools _ hsource houtput).lift fun result => ?_
    exact Preserves.andThen (preserves_cleanUp tools hpaths).lift fun _ => fun w h => h
  | exe =>
    have hsource : Immune P (intermediate output "s") := hpaths _ (by simp [intermediates])
    have hobject : Immune P (intermediate output "o") := hpaths _ (by simp [intermediates])
    have hmade := Preserves.andThen (preserves_makeObject tools p.assembly hsource hobject) fun _ =>
      preserves_runTool houtput tools.linker
        ["-g", "-z", "noexecstack", "-no-pie", "-o", output.text, (intermediate output "o").text]
    refine Preserves.andThen hmade.lift fun result => ?_
    exact Preserves.andThen (preserves_cleanUp tools hpaths).lift fun _ => fun w h => h

/-- a build that gets as far as its intermediate files removes them -/
theorem ensures_run {m : Machine} {tools : Toolchain} {e : Expr} {compiled : Program m.Op} {stage : Stage} {output : Path}
    (hcompile : compile m e = .ok compiled) (hkeep : tools.keepIntermediates = false)
    (hp : p ∈ intermediates stage output) :
    Ensures (Gone p) (run m tools e stage output : Action WorkspaceM Unit).run := by
  have hclean := ensures_cleanUp hkeep hp
  have hfor : compileFor m e = .ok compiled := by rw [compileFor, hcompile]
  have hstart (f : Program m.Op → Action WorkspaceM Unit) :
      (ExceptT.mk (pure (Except.ok compiled)) >>= f).run = (f compiled).run := rfl
  unfold run
  rw [hfor, hstart]
  cases stage with
  | ir | asm => cases hp
  | obj | exe =>
    dsimp only
    rw [ExceptT.run_bind_lift]
    refine Ensures.bind fun result => ?_
    rw [ExceptT.run_bind_lift]
    exact hclean.andThen fun _ => fun w h => h

end Build

end

/-! ## Names beside the source -/

section
variable {P : Workspace → Prop} {dir name other : List Char} {file p : Path} {bytes : ByteArray} {w : Workspace}

theorem immune_of_beside (hfile : Path.At dir name file) (hdot : name ≠ ['.']) (hparent : name ≠ ['.', '.'])
    (hp : Path.At dir other p) (hne : other ≠ name) : Immune (Has file bytes) p :=
  fun _ change hread => Tree.spares_beside hfile hp hdot hparent hne hread fun _ hhome => Tree.spares_change hhome change

theorem Build.exists_intermediate (h : Path.At dir name p) (hdot : name ≠ ['.']) {ext : String} (hext : '/' ∉ ext.toList) :
    ∃ other, Path.At dir other (intermediate p ext) := by
  have hdouble : '/' ∉ (ext ++ "." ++ ext).toList := by simp [String.toList_append, hext]
  unfold intermediate
  dsimp only
  split
  · obtain ⟨other, -, hother⟩ := h.exists_withExtension hdot hdouble
    exact ⟨other, hother⟩
  · obtain ⟨other, -, hother⟩ := h.exists_withExtension hdot hext
    exact ⟨other, hother⟩

theorem Build.exists_of_mem_intermediates (h : Path.At dir name p) (hdot : name ≠ ['.']) {stage : Stage} {q : Path}
    (hq : q ∈ intermediates stage p) : ∃ other, Path.At dir other q := by
  rcases mem_intermediates.1 hq with ⟨hsource, -⟩ | ⟨hobject, -⟩
  · rw [hsource]
    exact exists_intermediate h hdot (by decide)
  · rw [hobject]
    exact exists_intermediate h hdot (by decide)

/-- an intermediate file ends in its extension -/
theorem Build.extension?_intermediate (h : Path.At dir name p) (hdot : name ≠ ['.']) {ext : String} (hempty : ext ≠ "")
    (hdots : '.' ∉ ext.toList) (hslash : '/' ∉ ext.toList) (hfile : (intermediate p ext).fileName?.isSome) :
    (intermediate p ext).extension? = some ext := by
  have hsingle : Path.suffix ext = [] ++ '.' :: ext.toList := by simp [Path.suffix, hempty]
  have hdouble : Path.suffix (ext ++ "." ++ ext) = ('.' :: ext.toList) ++ '.' :: ext.toList := by
    have hne : ext ++ "." ++ ext ≠ "" := by
      intro heq
      simpa using congrArg String.toList heq
    simp [Path.suffix, hne, String.toList_append]
  have hboth : '/' ∉ (ext ++ "." ++ ext).toList := by simp [String.toList_append, hslash]
  have hgiven {path : Path} (hpath : path.fileName?.isSome)
      (hends : path.fileName? = none ∨ path.extension? = some (String.ofList ext.toList)) :
      path.extension? = some ext := by
    rw [String.ofList_toList] at hends
    exact hends.resolve_left fun hnone => by simp [hnone] at hpath
  unfold intermediate at hfile ⊢
  dsimp only at hfile ⊢
  split at hfile
  · rename_i halike
    rw [if_pos halike]
    exact hgiven hfile (h.extension?_withExtension hdot hdouble hdots hboth)
  · rename_i hunlike
    rw [if_neg hunlike]
    exact hgiven hfile (h.extension?_withExtension hdot hsingle hdots hslash)

namespace Command

/-- the output beside a source has another name -/
theorem exists_defaultOutput (h : Path.At dir name file) (hdot : name ≠ ['.']) (hparent : name ≠ ['.', '.'])
    (stage : Stage) : ∃ other, Path.At dir other (defaultOutput file stage) ∧ other ≠ ['.'] ∧ other ≠ name := by
  have hext : '/' ∉ stage.extension.toList := by cases stage <;> decide
  unfold defaultOutput
  dsimp only
  split
  · rename_i halike
    rcases h.withExtension hdot with hdots | ⟨s, hs, hone, hslash, htext⟩
    · exact absurd ((hdots _).eq_of_alike h (by decide) hdot halike).symm hparent
    · have hstage := h.of_suffix hs hslash hext (htext _)
      have hout := h.of_suffix hs hslash (by decide) (htext "out")
      -- the source ends in the extension of the stage, and that is not `out`
      have hname := hstage.eq_of_alike h (Path.append_ne_dot hs hone) hdot halike
      refine ⟨_, hout, Path.append_ne_dot hs hone, fun heq => ?_⟩
      have hsuffix := List.append_cancel_left (heq.trans hname.symm)
      cases stage <;> revert hsuffix <;> decide
  · rename_i hunlike
    obtain ⟨other, hdot', hother⟩ := h.exists_withExtension hdot hext
    refine ⟨other, hother, hdot', ?_⟩
    rintro rfl
    rw [hother.eq h] at hunlike
    exact hunlike (decide_eq_true rfl)

theorem ne_parent_of_fileName? (h : Path.At dir name file) (hdot : name ≠ ['.']) (hname : file.fileName?.isSome) :
    name ≠ ['.', '.'] := by
  rintro rfl
  rw [h.fileName? hdot, if_pos rfl] at hname
  cases hname

/-- the intermediate files of a build without a named output -/
def madeOnTheWay (file : Path) (requested : Option Stage) : List Path :=
  Build.intermediates (chooseOutput file none requested).1 (chooseOutput file none requested).2

theorem chooseOutput_none (file : Path) (requested : Option Stage) :
    chooseOutput file none requested = (requested.getD .exe, defaultOutput file (requested.getD .exe)) := by
  cases requested <;> rfl

/-- what a build does something to is not the source, if no intermediate file is -/
theorem immune_made (hname : file.fileName?.isSome) (hread : w.tree.read file = .ok bytes) {requested : Option Stage}
    (hapart : file ∉ madeOnTheWay file requested) {p : Path}
    (hp : p = (chooseOutput file none requested).2 ∨ p ∈ madeOnTheWay file requested) :
    Immune (Has file bytes) p := by
  obtain ⟨dir, name, hfile, hdot⟩ := Tree.exists_at_of_read hread
  have hparent := ne_parent_of_fileName? hfile hdot hname
  obtain ⟨output, houtput, hdot', hne⟩ := exists_defaultOutput hfile hdot hparent (requested.getD .exe)
  rw [madeOnTheWay, chooseOutput_none] at hapart hp
  dsimp only at hapart hp
  rcases hp with hp | hp
  · rw [hp]
    exact immune_of_beside hfile hdot hparent houtput hne
  · obtain ⟨other, hother⟩ := Build.exists_of_mem_intermediates houtput hdot' hp
    refine immune_of_beside hfile hdot hparent hother ?_
    rintro rfl
    rw [hother.eq hfile] at hp
    exact hapart hp

theorem read_runCompile (machine : Option Machine) (emit : Option Stage) (keep : Bool) (config : Option Path)
    (hname : file.fileName?.isSome) (hread : w.tree.read file = .ok bytes)
    (hapart : ∀ c, ((loadConfig config : Work WorkspaceM Config).run w).1 = .ok c →
      file ∉ madeOnTheWay file (emit <|> c.emit)) :
    ((runCompile file none machine emit keep config : Work WorkspaceM String).run w).2.tree.read file = .ok bytes := by
  unfold runCompile
  have hload := preserves_loadConfig (P := Has file bytes) config w hread
  refine Preserves.andThen_at hload fun c hc => ?_
  have himmune {p : Path} := immune_made (p := p) hname hread (hapart c hc)
  rw [madeOnTheWay] at himmune
  generalize chooseOutput file none (emit <|> c.emit) = choice at himmune ⊢
  obtain ⟨stage, output⟩ := choice
  refine Preserves.andThen preserves_readProgram fun e => ?_
  dsimp only
  split
  · split
    · split
      · exact .pure _
      · exact .throw _
    · exact .throw _
  · have hrun := Build.preserves_run (machine.getD c.machine)
      { c.tools with keepIntermediates := keep || c.tools.keepIntermediates } e stage (himmune (.inl rfl))
      fun p hp => himmune (.inr hp)
    refine Preserves.andThen hrun.lift fun result => ?_
    split
    · exact .pure _
    · exact .throw _

/-- work that goes on with what was given -/
theorem run_andThen {α β ε : Type} {x : ExceptT ε WorkspaceM α} {f : α → ExceptT ε WorkspaceM β} {a : α}
    (hx : ∀ P, Preserves P x.run) (ha : (x.run w).1 = .ok a) : (x >>= f).run w = (f a).run w := by
  have hbind {γ : Type} (y : WorkspaceM γ) (g : γ → WorkspaceM (Except ε β)) : (y >>= g) w = g (y w).1 (y w).2 := rfl
  rw [ExceptT.run_bind, hbind, ha, unchanged hx]

theorem gone_runCompile {machine : Option Machine} {emit : Option Stage} {keep : Bool} {config : Option Path} {c : Config}
    {e : Expr} {compiled : Program (machine.getD c.machine).Op}
    (hconfig : ((loadConfig config : Work WorkspaceM Config).run w).1 = .ok c)
    (hprogram : ((readProgram file : Work WorkspaceM Expr).run w).1 = .ok e)
    (hcompile : compile (machine.getD c.machine) e = .ok compiled) (hkeep : (keep || c.tools.keepIntermediates) = false)
    (hfile : isStdout (chooseOutput file none (emit <|> c.emit)).2 = false)
    (hmade : p ∈ madeOnTheWay file (emit <|> c.emit)) :
    Gone p ((runCompile file none machine emit keep config : Work WorkspaceM String).run w).2 := by
  unfold runCompile
  rw [run_andThen (fun P => preserves_loadConfig config) hconfig]
  rw [madeOnTheWay] at hmade
  generalize chooseOutput file none (emit <|> c.emit) = choice at hfile hmade ⊢
  obtain ⟨stage, output⟩ := choice
  dsimp only at hfile hmade ⊢
  rw [run_andThen (fun P => preserves_readProgram) hprogram, if_neg (by simp [hfile]), ExceptT.run_bind_lift]
  refine Ensures.andThen (Build.ensures_run hcompile hkeep hmade) (fun result => ?_) w
  split
  · exact .pure _
  · exact .throw _

variable {env : Environment} {args : List String} {color : Color} {machine : Option Machine} {emit : Option Stage}
  {keep : Bool} {config : Option Path}

theorem respond_of_action {action : Action} (hargs : Request.ofArgs args = .ok (.action color action)) :
    ((respond env args : WorkspaceM Output) w).2 = ((runAction action : Work WorkspaceM String).run w).2 := by
  have hbind {α β : Type} (y : WorkspaceM α) (g : α → WorkspaceM β) : (y >>= g) w = g (y w).1 (y w).2 := rfl
  unfold respond
  rw [hargs]
  dsimp only
  rw [hbind]
  cases ((runAction action : Work WorkspaceM String).run w).1 <;> rfl

theorem loadConfig_absent (h : w.tree.isFile configName = false) :
    ((loadConfig none : Work WorkspaceM Config).run w).1 = .ok .standard := by
  have hbind {α β : Type} (y : WorkspaceM α) (g : α → WorkspaceM β) : (y >>= g) w = g (y w).1 (y w).2 := rfl
  have hfound : (Host.isFile configName : WorkspaceM Bool) w = (w.tree.isFile configName, w) := rfl
  unfold loadConfig
  rw [ExceptT.run_bind_lift, hbind, hfound, h]
  rfl

/-- a program in a file of some name, and tools that say they are done -/
def oneProgram (name : String) : Workspace where
  tree := Tree.empty.addFile [name] "1".toUTF8
  tool? _ := some fun _ _ => (.succeeded, .keep)

theorem read_oneProgram {name : String} (h : ((oneProgram name).tree.read ⟨name⟩).toOption = some "1".toUTF8) :
    (oneProgram name).tree.read ⟨name⟩ = .ok "1".toUTF8 := by
  cases hread : (oneProgram name).tree.read ⟨name⟩ with
  | ok bytes =>
    rw [hread] at h
    exact congrArg _ (Option.some.inj h)
  | error e =>
    rw [hread] at h
    cases h

/-- an intermediate file can be the source only where a binary is made, and only if the source ends like it -/
theorem stage_of_mem_madeOnTheWay (hname : file.fileName?.isSome) (hread : w.tree.read file = .ok bytes)
    {requested : Option Stage} (hmade : file ∈ madeOnTheWay file requested) :
    file.extension? = some "s" ∧ (requested.getD .exe = .obj ∨ requested.getD .exe = .exe) ∨
      file.extension? = some "o" ∧ requested.getD .exe = .exe := by
  obtain ⟨dir, name, hfile, hdot⟩ := Tree.exists_at_of_read hread
  have hparent := ne_parent_of_fileName? hfile hdot hname
  obtain ⟨output, houtput, hdot', -⟩ := exists_defaultOutput hfile hdot hparent (requested.getD .exe)
  rw [madeOnTheWay, chooseOutput_none] at hmade
  dsimp only at hmade
  have hends {ext : String} (hext : ext = "s" ∨ ext = "o")
      (heq : file = Build.intermediate (defaultOutput file (requested.getD .exe)) ext) : file.extension? = some ext := by
    rw [heq] at hname ⊢
    rcases hext with rfl | rfl <;>
      exact Build.extension?_intermediate houtput hdot' (by decide) (by decide) (by decide) hname
  rcases Build.mem_intermediates.1 hmade with ⟨hsource, hstage⟩ | ⟨hobject, hstage⟩
  · exact .inl ⟨hends (.inl rfl) hsource, hstage⟩
  · exact .inr ⟨hends (.inr rfl) hobject, hstage⟩

/-- where an intermediate file is the source, the source is gone after the command -/
theorem source_lost (hargs : Request.ofArgs args = .ok (.action color (.compile file none machine emit keep config)))
    {c : Config} {e : Expr} {compiled : Program (machine.getD c.machine).Op}
    (hconfig : ((loadConfig config : Work WorkspaceM Config).run w).1 = .ok c)
    (hprogram : ((readProgram file : Work WorkspaceM Expr).run w).1 = .ok e)
    (hcompile : compile (machine.getD c.machine) e = .ok compiled) (hkeep : (keep || c.tools.keepIntermediates) = false)
    (hfile : isStdout (chooseOutput file none (emit <|> c.emit)).2 = false)
    (hmade : file ∈ madeOnTheWay file (emit <|> c.emit)) :
    ((respond env args : WorkspaceM Output) w).2.tree.isFile file = false := by
  rw [respond_of_action hargs]
  exact gone_runCompile hconfig hprogram hcompile hkeep hfile hmade

end Command

end

end ThreeMachines
