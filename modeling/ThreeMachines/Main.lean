/-
The command line program: files are those of the computer, and no tool is ever started.
-/
import ThreeMachines.Command.Run

namespace ThreeMachines.Command

/-- the reason behind an error of the system, told by its number -/
def fileErrorOf (e : IO.Error) : FileError :=
  match e with
  | .noFileOrDirectory _ _ _ => .notFound
  | .permissionDenied _ 13 _ => .denied
  | .inappropriateType _ 20 _ => .notDirectory
  | .inappropriateType _ 21 _ => .isDirectory
  | .invalidArgument _ 36 _ => .nameTooLong
  | _ => .other (toString e)

/-- an action that may fail, as one that tells why it failed -/
def attempt {α : Type} (action : IO α) : IO (Except FileError α) := do
  match ← action.toBaseIO with
  | .ok value => return .ok value
  | .error e => return .error (fileErrorOf e)

instance : Host IO where
  read p := attempt (IO.FS.readBinFile p.text)
  write p text := attempt (IO.FS.writeFile p.text text)
  remove p := do
    let _ ← attempt (IO.FS.removeFile p.text)
  isFile p := return (← attempt (IO.FS.readBinFile p.text)).toBool
  runTool _ _ _ := return .notStarted "programs are not started from here"

end ThreeMachines.Command

open ThreeMachines.Command in
def main (args : List String) : IO UInt32 := do
  let stderr ← IO.getStderr
  let env : Environment := ⟨(← IO.getEnv "NO_COLOR").isSome, ← stderr.isTty⟩
  let out ← respond env args
  (← IO.getStdout).putStr out.stdout
  stderr.putStr out.stderr
  return out.code.toUInt32
