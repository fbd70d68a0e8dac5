/-
What a build needs from its surroundings: files and tools.

`Host m` offers them in a monad `m`, so that a build is one definition whether it works on the files of a computer or on
a `Workspace`, which is a value.
-/
import ThreeMachines.Build.Path

namespace ThreeMachines

/-- why a file cannot be read or written -/
inductive FileError where
  | notFound
  | isDirectory
  | notDirectory
  /-- the name, or the path, has too many bytes -/
  | nameTooLong
  /-- the path has a zero byte in it -/
  | zeroByte
  | denied
  /-- the bytes are not UTF-8 -/
  | notText
  /-- another reason, in the words of the system -/
  | other (text : String)
deriving DecidableEq, Repr

def FileError.text : FileError → String
  | notFound => "No such file or directory (os error 2)"
  | isDirectory => "Is a directory (os error 21)"
  | notDirectory => "Not a directory (os error 20)"
  | nameTooLong => "File name too long (os error 36)"
  | zeroByte => "file name contained an unexpected NUL byte"
  | denied => "Permission denied (os error 13)"
  | notText => "stream did not contain valid UTF-8"
  | other text => text

/-- how the run of a tool ended -/
inductive ToolOutcome where
  | succeeded
  /-- the tool could not be started -/
  | notStarted (reason : String)
  /-- the tool reported failure, and what it said -/
  | failed (status detail : String)
deriving DecidableEq, Repr

/-- files and tools, as effects of `m` -/
class Host (m : Type → Type) where
  read : Path → m (Except FileError ByteArray)
  write : Path → String → m (Except FileError Unit)
  /-- remove a file, if it can be removed -/
  remove : Path → m Unit
  isFile : Path → m Bool
  /-- run a tool with its arguments; `output` is the file that it makes -/
  runTool (tool : String) (args : List String) (output : Path) : m ToolOutcome

/-- the text of a file -/
def readText {m : Type → Type} [Monad m] [Host m] (p : Path) : m (Except FileError String) := do
  match ← Host.read p with
  | .ok bytes =>
    match String.fromUTF8? bytes with
    | some text => return .ok text
    | none => return .error .notText
  | .error e => return .error e

end ThreeMachines
