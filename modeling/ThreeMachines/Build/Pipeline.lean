/-
Building the output of a stage.

A text stage is written to the output itself. An object file is assembled from an assembly text, and an executable
linked from an object file; these intermediate files stand beside the output and are removed again, on failure too,
unless they are to be kept.
-/
import ThreeMachines.Build.Stage
import ThreeMachines.Build.Host
import ThreeMachines.Compile

namespace ThreeMachines

/-- the tools of a build -/
structure Toolchain where
  assembler : String
  linker : String
  /-- whether the intermediate files stay -/
  keepIntermediates : Bool
deriving DecidableEq, Repr

def Toolchain.standard : Toolchain := ⟨"nasm", "gcc", false⟩

inductive BuildError where
  | compile (error : CompileError)
  | toolFailure (tool status detail : String)
  | file (path : Path) (error : FileError)
  /-- the stage has no text -/
  | binaryStage (stage : Stage)
deriving DecidableEq, Repr

namespace BuildError

def message : BuildError → String
  | compile error => error.message
  | toolFailure tool status detail => tool ++ " failed (" ++ status ++ "): " ++ detail
  | file path error => "I/O error on " ++ path.text ++ ": " ++ error.text
  | binaryStage stage => internalMessage ("stage " ++ stage.name ++ " produces a binary file, not text")

/-- the message and the reasons behind it -/
def chain (e : BuildError) : List String :=
  match e with
  | file _ error => [e.message, error.text]
  | _ => [e.message]

end BuildError

/-- the program of an expression, as a part of a build -/
def compileFor (m : Machine) (e : Expr) : Except BuildError (Program m.Op) :=
  match compile m e with
  | .ok p => .ok p
  | .error error => .error (.compile error)

/-- the text of a text stage -/
def renderStage (m : Machine) (e : Expr) (stage : Stage) : Except BuildError String := do
  let p ← compileFor m e
  match stage with
  | .ir => return p.listing
  | .asm => return p.assembly
  | .obj | .exe => .error (.binaryStage stage)

namespace Build

/-- a step of a build on a host -/
abbrev Action (m : Type → Type) := ExceptT BuildError m

variable {m : Type → Type} [Monad m] [Host m]

def writeText (path : Path) (text : String) : Action m Unit := ExceptT.mk do
  match ← Host.write path text with
  | .ok () => return .ok ()
  | .error e => return .error (.file path e)

/-- run a tool that makes a file -/
def runTool (tool : String) (args : List String) (output : Path) : Action m Unit := do
  match ← ExceptT.lift (Host.runTool tool args output) with
  | .succeeded => return ()
  | .notStarted reason => throw (.toolFailure tool "not started" reason)
  | .failed status detail => throw (.toolFailure tool status detail)

/-- make an object file of an assembly text -/
def assemble (tools : Toolchain) (source object : Path) : Action m Unit :=
  runTool tools.assembler ["-g", "-F", "dwarf", "-f", "elf64", "-o", object.text, source.text] object

/-- make an executable of an object file -/
def link (tools : Toolchain) (object executable : Path) : Action m Unit :=
  runTool tools.linker ["-g", "-z", "noexecstack", "-no-pie", "-o", executable.text, object.text] executable

/-- the intermediate file beside an output; the extension is doubled where the output has it already -/
def intermediate (output : Path) (ext : String) : Path :=
  let path := output.withExtension ext
  if path.alike output then output.withExtension (ext ++ "." ++ ext) else path

/-- remove intermediate files, unless they are to be kept -/
def cleanUp (tools : Toolchain) (paths : List Path) : m Unit :=
  if tools.keepIntermediates then return () else paths.forM Host.remove

/-- write an assembly text and make an object file of it -/
def makeObject (tools : Toolchain) (assembly : String) (source object : Path) : Action m Unit := do
  writeText source assembly
  assemble tools source object

/-- write the output of a stage -/
def run (machine : Machine) (tools : Toolchain) (e : Expr) (stage : Stage) (output : Path) : Action m Unit := do
  let p ← ExceptT.mk (pure (compileFor machine e))
  match stage with
  | .ir => writeText output p.listing
  | .asm => writeText output p.assembly
  | .obj => do
    let source := intermediate output "s"
    let result ← ExceptT.lift (makeObject tools p.assembly source output : Action m Unit).run
    ExceptT.lift (cleanUp tools [source] : m Unit)
    ExceptT.mk (pure result)
  | .exe => do
    let source := intermediate output "s"
    let object := intermediate output "o"
    let made : Action m Unit := do
      makeObject tools p.assembly source object
      link tools object output
    let result ← ExceptT.lift made.run
    ExceptT.lift (cleanUp tools [source, object] : m Unit)
    ExceptT.mk (pure result)

end Build
end ThreeMachines
