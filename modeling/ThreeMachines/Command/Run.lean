/-
Carrying out a command line.

`respond` gives the exit code and the two output texts: 0 and the result, 1 and an error with the reasons behind it, or
2 and what is wrong with the command line. The configuration comes from the file that the command line names, or else
from `trivium.toml` if there is such a file; choices on the command line go before it.
-/
import ThreeMachines.Command.Arguments
import ThreeMachines.Build.Config
import ThreeMachines.Syntax.Parse
import ThreeMachines.Syntax.Data
import ThreeMachines.Syntax.Outline

namespace ThreeMachines.Command

/-- an error and the reasons behind it, the last one first in time -/
structure Failure where
  chain : List String
deriving DecidableEq, Repr

def Failure.text (f : Failure) : String := String.intercalate ": " f.chain

structure Output where
  code : Nat
  stdout : String
  stderr : String
deriving DecidableEq, Repr

/-- facts about the surroundings of a command -/
structure Environment where
  /-- color is never wanted -/
  noColor : Bool
  /-- errors go to a terminal that shows colors -/
  terminal : Bool
deriving DecidableEq, Repr

/-- work on a host that fails with an error, or gives a text for the standard output -/
abbrev Work (m : Type → Type) := ExceptT Failure m

variable {m : Type → Type} [Monad m] [Host m]

/-- name of the configuration in the working directory -/
def configName : Path := ⟨"trivium.toml"⟩

/-- the text of a file; `describe` says what could not be done -/
def readOr (describe : FileError → List String) (path : Path) : Work m String := do
  match ← ExceptT.lift (readText path : m (Except FileError String)) with
  | .ok text => return text
  | .error e => throw ⟨describe e⟩

def readConfig (path : Path) : Work m Config := do
  let text ← readOr (fun e => ["Failed to read config file " ++ path.text ++ ": " ++ e.text, e.text]) path
  match Config.parse? text with
  | some config => return config
  | none => throw ⟨["Failed to parse config file " ++ path.text, "not a configuration"]⟩

/-- the configuration that counts -/
def loadConfig (explicit : Option Path) : Work m Config := do
  match explicit with
  | some path => readConfig path
  | none => if ← ExceptT.lift (Host.isFile configName : m Bool) then readConfig configName else return .standard

/-- the expression in a file -/
def readProgram (file : Path) : Work m Expr := do
  let text ← readOr (fun e => ["cannot read " ++ file.text, e.text]) file
  match Expr.parse text with
  | .ok e => return e
  | .error e => throw ⟨["cannot parse " ++ file.text, e.message]⟩

/-- the machine that the command line or the configuration names -/
def chooseMachine : Option Machine → Work m Machine
  | some machine => return machine
  | none => return (← loadConfig none).machine

def compileOr (machine : Machine) (e : Expr) : Work m (Program machine.Op) :=
  match ThreeMachines.compile machine e with
  | .ok p => return p
  | .error error => throw ⟨[error.message]⟩

/-- the output beside a source; it is not the source itself -/
def defaultOutput (file : Path) (stage : Stage) : Path :=
  let output := file.withExtension stage.extension
  if output.alike file then file.withExtension "out" else output

/-- the stage and the output of a build -/
def chooseOutput (file : Path) (output : Option Path) (requested : Option Stage) : Stage × Path :=
  match requested, output with
  | some stage, some output => (stage, output)
  | some stage, none => (stage, defaultOutput file stage)
  | none, some output => (Stage.ofPath output, output)
  | none, none => (.exe, defaultOutput file .exe)

/-- the output stands for the standard output -/
def isStdout (path : Path) : Bool := path.text = "-"

/-- build a file, or give the text of a text stage -/
def runCompile (file : Path) (output : Option Path) (machine : Option Machine) (emit : Option Stage)
    (keepIntermediates : Bool) (config : Option Path) : Work m String := do
  let config ← loadConfig config
  let machine := machine.getD config.machine
  let tools := { config.tools with keepIntermediates := keepIntermediates || config.tools.keepIntermediates }
  let (stage, output) := chooseOutput file output (emit <|> config.emit)
  let e ← readProgram file
  if isStdout output then
    if stage.isText then
      match renderStage machine e stage with
      | .ok text => return text
      | .error error => throw ⟨error.chain⟩
    else throw ⟨["stage " ++ stage.name ++ " cannot be written to stdout; use --emit ir or --emit asm"]⟩
  else
    match ← ExceptT.lift (Build.run machine tools e stage output : Build.Action m Unit).run with
    | .ok () => return ""
    | .error error => throw ⟨("cannot build " ++ output.text) :: error.chain⟩

def runIr (file : Path) (machine : Option Machine) : Work m String := do
  let machine ← chooseMachine machine
  let p ← compileOr machine (← readProgram file)
  return p.listing

def runParse (file : Path) (json : Bool) : Work m String := do
  let e ← readProgram file
  return (if json then e.toJson.pretty else e.outline.text) ++ "\n"

def runEval (file : Path) (machine : Option Machine) (maxSteps : Nat) : Work m String := do
  let machine ← chooseMachine machine
  let p ← compileOr machine (← readProgram file)
  match p.simulate maxSteps with
  | .ok value => return toString value ++ "\n"
  | .error fault => throw ⟨[machine.name ++ " machine stopped", fault.message]⟩

def runAction : Action → Work m String
  | .compile file output machine emit keepIntermediates config =>
    runCompile file output machine emit keepIntermediates config
  | .ir file machine => runIr file machine
  | .parse file json => runParse file json
  | .eval file machine maxSteps => runEval file machine maxSteps

/-- whether errors are colored -/
def Environment.colored (env : Environment) (color : Color) : Bool :=
  !env.noColor && match color with
    | .always => true
    | .never => false
    | .auto => env.terminal

/-- the word `error`, in bold red if colors are wanted -/
def errorWord (colored : Bool) : String := if colored then "\x1b[0m\x1b[1m\x1b[31merror\x1b[0m" else "error"

/-- name and version of the program -/
def versionText : String := "trivium 0.1.0\n"

def usageText : String :=
  "Usage: trivium [OPTIONS] <COMMAND>\n\n" ++
  "Commands:\n" ++
  "  compile  Compile a program to IR, assembly, an object file or an executable\n" ++
  "  ir       Print the IR of a program\n" ++
  "  parse    Print the syntax tree of a program\n" ++
  "  eval     Run a program on the IR simulator and print its result\n" ++
  "  help     Print this message\n"

/-- carry out a command line -/
def respond (env : Environment) (args : List String) : m Output := do
  match Request.ofArgs args with
  | .error e => return ⟨2, "", "error: " ++ e.message ++ "\n\n" ++ usageText⟩
  | .ok .version => return ⟨0, versionText, ""⟩
  | .ok .help => return ⟨0, usageText, ""⟩
  | .ok (.action color action) =>
    match ← (runAction action : Work m String).run with
    | .ok text => return ⟨0, text, ""⟩
    | .error failure => return ⟨1, "", errorWord (env.colored color) ++ ": " ++ failure.text ++ "\n"⟩

end ThreeMachines.Command
