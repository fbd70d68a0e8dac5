/-
Verbs and options of the command line.

The first operand of a command line is its verb, or else it asks for the help, on what stands behind it. An option has a
long spelling, some have a short one of a single letter, and some take a value. `readGiven` reads the arguments one
after the other; what it makes of an argument depends on the verb only by the options that are known.

A value stands in the argument of its option, behind an equals sign or right behind the letter, or in the argument after
it; there it may not start with a dash, except that it may be a single dash. A double dash makes operands of all
arguments behind it.
-/

namespace ThreeMachines.Command

inductive Verb where
  | compile | ir | parse | eval
deriving DecidableEq, Repr

def Verb.all : List Verb := [.compile, .ir, .parse, .eval]

def Verb.name : Verb → String
  | compile => "compile"
  | ir => "ir"
  | parse => "parse"
  | eval => "eval"

def Verb.ofName? (name : String) : Option Verb := Verb.all.find? fun v => v.name == name

/-- what stands in the place of the verb to ask for the help -/
def helpWord : String := "help"

inductive Opt where
  | verbose | color | help | version | output | machine | emit | keepIntermediates | config | json | maxSteps
deriving DecidableEq, Repr

namespace Opt

def long : Opt → String
  | verbose => "verbose"
  | color => "color"
  | help => "help"
  | version => "version"
  | output => "output"
  | machine => "vm"
  | emit => "emit"
  | keepIntermediates => "keep-intermediates"
  | config => "config"
  | json => "json"
  | maxSteps => "max-steps"

def letter? : Opt → Option Char
  | verbose => some 'v'
  | help => some 'h'
  | version => some 'V'
  | output => some 'o'
  | _ => none

def takesValue : Opt → Bool
  | color | output | machine | emit | config | maxSteps => true
  | verbose | help | version | keepIntermediates | json => false

/-- options that a command line may give more than once -/
def mayRepeat : Opt → Bool
  | verbose => true
  | _ => false

/-- the options that are known behind a verb, or before it -/
def known : Option Verb → List Opt
  | none => [verbose, color, help, version]
  | some .compile => [verbose, color, help, output, machine, emit, keepIntermediates, config]
  | some .ir => [verbose, color, help, machine]
  | some .parse => [verbose, color, help, json]
  | some .eval => [verbose, color, help, machine, maxSteps]

end Opt

/-- what is wrong with a command line -/
inductive UsageError where
  | unknownOption (arg : String)
  | unknownVerb (name : String)
  | missingVerb
  | missingFile
  | missingValue (o : Opt)
  | unexpectedValue (o : Opt)
  | invalidValue (o : Opt) (value : String)
  | repeated (o : Opt)
  | unexpectedOperand (text : String)
deriving DecidableEq, Repr

def UsageError.message : UsageError → String
  | unknownOption arg => "unexpected argument '" ++ arg ++ "' found"
  | unknownVerb name => "unrecognized subcommand '" ++ name ++ "'"
  | missingVerb => "a subcommand is required but one was not provided"
  | missingFile => "the following required arguments were not provided: <FILE>"
  | missingValue o => "a value is required for '--" ++ o.long ++ "' but none was supplied"
  | unexpectedValue o => "unexpected value for '--" ++ o.long ++ "' found"
  | invalidValue o value => "invalid value '" ++ value ++ "' for '--" ++ o.long ++ "'"
  | repeated o => "the argument '--" ++ o.long ++ "' cannot be used multiple times"
  | unexpectedOperand text => "unexpected argument '" ++ text ++ "' found"

/-- a part of a command line -/
inductive Given where
  | flag (o : Opt)
  | value (o : Opt) (text : String)
  | verb (v : Verb)
  /-- the help, on a verb if one is named -/
  | helpOn (names : List String)
  | operand (text : String)
  | wrong (e : UsageError)
deriving DecidableEq, Repr

/-- how an option gets its value -/
inductive Attached where
  /-- options without values, and no argument more -/
  | complete (given : List Given)
  /-- the last option takes its value from the argument behind it -/
  | awaiting (given : List Given) (o : Opt)
deriving DecidableEq, Repr

/-- an argument with a double dash, without the dashes -/
def readLong (verb : Option Verb) (text : List Char) : Attached :=
  let name := String.ofList (text.takeWhile fun c => c ≠ '=')
  match (Opt.known verb).find? (fun o => o.long == name), text.dropWhile (fun c => c ≠ '=') with
  | none, _ => .complete [.wrong (.unknownOption ("--" ++ String.ofList text))]
  | some o, [] => if o.takesValue then .awaiting [] o else .complete [.flag o]
  | some o, _ :: value =>
    if o.takesValue then .complete [.value o (String.ofList value)] else .complete [.wrong (.unexpectedValue o)]

/-- an argument with a single dash, without the dash -/
def readLetters (verb : Option Verb) : List Char → Attached
  | [] => .complete []
  | c :: rest =>
    match (Opt.known verb).find? (fun o => o.letter? == some c) with
    | none => .complete [.wrong (.unknownOption ("-" ++ c.toString))]
    | some o =>
      if o.takesValue then
        match rest with
        | [] => .awaiting [] o
        | '=' :: value => .complete [.value o (String.ofList value)]
        | value => .complete [.value o (String.ofList value)]
      else match readLetters verb rest with
        | .complete given => .complete (.flag o :: given)
        | .awaiting given last => .awaiting (.flag o :: given) last

/-- whether an argument cannot be the value of the option before it -/
def isOption (arg : String) : Bool :=
  match arg.toList with
  | '-' :: _ :: _ => true
  | _ => false

/-- the parts of a command line, from left to right -/
def readGiven (verb : Option Verb) : List String → List Given
  | [] => []
  | arg :: rest =>
    match arg.toList with
    | ['-', '-'] =>
      rest.map fun text => if verb.isSome then .operand text else .wrong (.unexpectedOperand text)
    | '-' :: c :: cs =>
      match if c = '-' then readLong verb cs else readLetters verb (c :: cs) with
      | .complete given => given ++ readGiven verb rest
      | .awaiting given o =>
        match rest with
        | [] => given ++ [.wrong (.missingValue o)]
        | value :: rest =>
          if isOption value then given ++ [.wrong (.missingValue o)]
          else given ++ [.value o value] ++ readGiven verb rest
    | _ =>
      match verb, Verb.ofName? arg with
      | some _, _ => .operand arg :: readGiven verb rest
      | none, some v => .verb v :: readGiven (some v) rest
      | none, none => if arg = helpWord then [.helpOn rest] else [.wrong (.unknownVerb arg)]

end ThreeMachines.Command
