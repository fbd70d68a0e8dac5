/-
What a command line asks for.

The parts of a command line are taken from left to right; the first thing that is wrong decides, unless the version or
the help was asked for before it. The color may be chosen before the verb and again behind it, where it counts.
-/
import ThreeMachines.Command.Option
import ThreeMachines.Build.Stage
import ThreeMachines.Code.Machine
import ThreeMachines.Data.Word

namespace ThreeMachines.Command

/-- when the word `error` is colored -/
inductive Color where
  | auto | always | never
deriving DecidableEq, Repr

def Color.ofName? : String → Option Color
  | "auto" => some .auto
  | "always" => some .always
  | "never" => some .never
  | _ => none

/-- what the verbs `compile`, `ir`, `parse` and `eval` do, and to what -/
inductive Action where
  | compile (file : Path) (output : Option Path) (machine : Option Machine) (emit : Option Stage)
      (keepIntermediates : Bool) (config : Option Path)
  | ir (file : Path) (machine : Option Machine)
  | parse (file : Path) (json : Bool)
  | eval (file : Path) (machine : Option Machine) (maxSteps : Nat)
deriving DecidableEq, Repr

inductive Request where
  | action (color : Color) (action : Action)
  | version
  | help
deriving DecidableEq, Repr

/-- what the parts read so far say -/
structure Choices where
  /-- options given since the verb -/
  given : List Opt
  verb : Option Verb
  file : Option Path
  color : Color
  output : Option Path
  machine : Option Machine
  emit : Option Stage
  config : Option Path
  maxSteps : Nat
deriving DecidableEq, Repr

/-- steps of a run, if the command line does not limit them otherwise -/
def standardSteps : Nat := 5000000

def Choices.start : Choices := ⟨[], none, none, .auto, none, none, none, none, standardSteps⟩

/-- a decimal number of 64 bits, with or without a plus sign -/
def steps? (text : String) : Option Nat :=
  let digits := match text.toList with
    | '+' :: rest => rest
    | cs => cs
  if digits.isEmpty || !digits.all Char.isDigit then none
  else
    let n := digits.foldl (fun n c => 10 * n + (c.toNat - '0'.toNat)) 0
    if n < wordCount then some n else none

/-- a path; the empty text is none -/
def path? (text : String) : Option Path := if text = "" then none else some ⟨text⟩

/-- set the value of an option -/
def Choices.setValue? (c : Choices) (o : Opt) (text : String) : Option Choices :=
  match o with
  | .color => (Color.ofName? text).map fun color => { c with color }
  | .output => (path? text).map fun output => { c with output := some output }
  | .config => (path? text).map fun config => { c with config := some config }
  | .machine => (Machine.ofName text).toOption.map fun machine => { c with machine := some machine }
  | .emit => (Stage.ofName text).toOption.map fun stage => { c with emit := some stage }
  | .maxSteps => (steps? text).map fun maxSteps => { c with maxSteps }
  | .verbose | .help | .version | .keepIntermediates | .json => none

/-- why the rest of a command line is not looked at -/
inductive Stop where
  | version
  | help
  | wrong (e : UsageError)
deriving DecidableEq, Repr

/-- note that an option is given -/
def Choices.note (c : Choices) (o : Opt) : Except Stop Choices :=
  if c.given.contains o && !o.mayRepeat then .error (.wrong (.repeated o)) else .ok { c with given := o :: c.given }

/-- the help is there for a single verb, and on itself -/
def Stop.ofHelpOn : List String → Stop
  | [] => .help
  | name :: rest =>
    if name ≠ helpWord ∧ Verb.ofName? name = none then .wrong (.unknownVerb name)
    else match rest with
      | [] => .help
      | other :: _ => .wrong (.unknownVerb other)

/-- take one part -/
def Choices.take (c : Choices) : Given → Except Stop Choices
  | .wrong e => .error (.wrong e)
  | .flag .version => .error .version
  | .flag .help => .error .help
  | .flag o => c.note o
  | .value o text =>
    match c.setValue? o text with
    | some c => c.note o
    | none => .error (.wrong (.invalidValue o text))
  | .helpOn names => .error (.ofHelpOn names)
  | .verb v => .ok { c with verb := some v, given := [] }
  | .operand text =>
    match c.file, path? text with
    | none, some file => .ok { c with file := some file }
    | none, none => .error (.wrong .missingFile)
    | some _, _ => .error (.wrong (.unexpectedOperand text))

/-- the action of complete choices -/
def Choices.action (c : Choices) : Except UsageError Action :=
  match c.verb, c.file with
  | none, _ => .error .missingVerb
  | some _, none => .error .missingFile
  | some .compile, some file =>
    .ok (.compile file c.output c.machine c.emit (c.given.contains .keepIntermediates) c.config)
  | some .ir, some file => .ok (.ir file c.machine)
  | some .parse, some file => .ok (.parse file (c.given.contains .json))
  | some .eval, some file => .ok (.eval file c.machine c.maxSteps)

/-- what the arguments ask for -/
def Request.ofArgs (args : List String) : Except UsageError Request :=
  match (readGiven none args).foldlM Choices.take Choices.start with
  | .error .version => .ok .version
  | .error .help => .ok .help
  | .error (.wrong e) => .error e
  | .ok c =>
    match c.action with
    | .ok chosen => .ok (.action c.color chosen)
    | .error e => .error e

end ThreeMachines.Command
