/-
What the code generators of the three machines have in common.

A generator threads the session (labels and global addresses, which go on from program to program), the scope table and
the function bodies of the program under construction (`Gen`); a failure keeps what was issued before it. Code is a
value: the code of an expression is put together from the code of its parts by the skeletons of `if`, of the loops and
of sequences, which are the same on every machine. The labels of a skeleton are issued before the code of its parts.
-/
import ThreeMachines.Code.Instr

namespace ThreeMachines

/-- what lasts from one program to the next -/
structure Session where
  labels : LabelAllocator
  globals : GlobalAllocator
deriving Repr, Inhabited

def Session.new : Session := ⟨.empty, .empty⟩

/-- a session and the program under construction -/
structure Draft (ι : Type) where
  session : Session
  scopes : ScopeTable
  lambdas : LambdaTable ι

/-- a step of code generation -/
abbrev Gen (ι : Type) := EStateM CompileError (Draft ι)

namespace Gen

variable {ι : Type}

/-- issue a label -/
def fresh (kind : String) : Gen ι Label := do
  let d ← get
  let (label, labels) := d.session.labels.fresh kind
  set { d with session := { d.session with labels } }
  return label

/-- what a name stands for, seen from a scope -/
def lookup (s : ScopeId) (name : String) : Gen ι Binding := do
  match (← get).scopes.lookup s name with
  | .ok b => return b
  | .error e => throw e

/-- what an assignment target stands for; an invisible one becomes a global -/
def resolveOrAllocate (s : ScopeId) (name : String) : Gen ι Binding := do
  let d ← get
  match d.scopes.resolveOrAllocate s name d.session.globals with
  | .ok (b, scopes, globals) =>
    set { d with session := { d.session with globals }, scopes }
    return b
  | .error e => throw e

/-- fix addresses in a scope, one after the other -/
def bindAll (s : ScopeId) : List Binding → Gen ι Unit
  | [] => return ()
  | b :: rest => do
    let d ← get
    match d.scopes.bind s b with
    | .ok scopes =>
      set { d with scopes }
      bindAll s rest
    | .error e => throw e

/-- open a scope whose names have these bindings -/
def openScope (parent : Option ScopeId) (bindings : List Binding) : Gen ι ScopeId := do
  let d ← get
  let (s, scopes) := d.scopes.push parent (bindings.map Binding.name)
  set { d with scopes }
  bindAll s bindings
  return s

/-- the outermost scope around a scope -/
def rootOf (s : ScopeId) : Gen ι ScopeId := return (← get).scopes.root s

/-- hand over a function body -/
def register (body : LambdaBody ι) : Gen ι Unit := do
  let d ← get
  match d.lambdas.register body with
  | .ok lambdas => set { d with lambdas }
  | .error e => throw e

end Gen

namespace Skeleton

variable {ι : Type}

/-- one branch or the other -/
def ifThenElse (start thenLabel elseLabel stop : Label) (cond thenBranch elseBranch : Code ι) : Code ι :=
  [.label start] ++ cond ++ [.jumpz elseLabel, .label thenLabel] ++ thenBranch ++ [.jump stop, .label elseLabel] ++
    elseBranch ++ [.label stop]

/-- the value starts as `neutral`, and each pass of the body replaces it -/
def whileDo (start stop : Label) (neutral cond body : Code ι) : Code ι :=
  neutral ++ [.label start] ++ cond ++ [.jumpz stop, .pop] ++ body ++ [.jump start, .label stop]

/-- the value is that of the last pass -/
def doWhile (start stop : Label) (body cond : Code ι) : Code ι :=
  [.label start] ++ body ++ cond ++ [.jumpz stop, .pop, .jump start, .label stop]

/-- the counter lies on the value for the test and under it for the rest of a pass -/
def countedLoop (start stop : Label) (neutral count body : Code ι) : Code ι :=
  neutral ++ count ++ [.label start, .dup, .loadc (.int 0), .binary .gt, .jumpz stop, .dec, .swap, .pop] ++ body ++
    [.swap, .jump start, .label stop, .pop]

end Skeleton

namespace Gen

variable {ι : Type}

def ifThenElse (cond thenBranch elseBranch : Gen ι (Code ι)) : Gen ι (Code ι) := do
  let start ← fresh "if"
  let thenLabel ← fresh "then"
  let elseLabel ← fresh "else"
  let stop ← fresh "endif"
  let condCode ← cond
  let thenCode ← thenBranch
  let elseCode ← elseBranch
  return Skeleton.ifThenElse start thenLabel elseLabel stop condCode thenCode elseCode

def whileDo (neutral : Code ι) (cond body : Gen ι (Code ι)) : Gen ι (Code ι) := do
  let start ← fresh "while"
  let stop ← fresh "endwhile"
  let condCode ← cond
  let bodyCode ← body
  return Skeleton.whileDo start stop neutral condCode bodyCode

def doWhile (body cond : Gen ι (Code ι)) : Gen ι (Code ι) := do
  let start ← fresh "dowhile"
  let stop ← fresh "enddowhile"
  let bodyCode ← body
  let condCode ← cond
  return Skeleton.doWhile start stop bodyCode condCode

def countedLoop (neutral : Code ι) (count body : Gen ι (Code ι)) : Gen ι (Code ι) := do
  let start ← fresh "loop"
  let stop ← fresh "endloop"
  let countCode ← count
  let bodyCode ← body
  return Skeleton.countedLoop start stop neutral countCode bodyCode

/-- run a generator in a session and a new scope table; the session goes on whatever comes out -/
def inSession (session : Session) (program : Gen ι (Program ι)) : Except CompileError (Program ι) × Session :=
  match program.run ⟨session, .empty, .empty⟩ with
  | .ok p d => (.ok p, d.session)
  | .error e d => (.error e, d.session)

end Gen
end ThreeMachines
