/-
How far a program is taken: to the text of its instructions, to assembly text, to an object file or to an executable.
-/
import ThreeMachines.Build.Path

namespace ThreeMachines

inductive Stage where
  | ir | asm | obj | exe
deriving DecidableEq, Repr, Inhabited

namespace Stage

def all : List Stage := [ir, asm, obj, exe]

def name : Stage → String
  | ir => "ir"
  | asm => "asm"
  | obj => "obj"
  | exe => "exe"

/-- the stage with this name -/
def ofName (name : String) : Except String Stage :=
  match all.find? (fun s => s.name == name) with
  | some s => .ok s
  | none => .error ("unknown stage `" ++ name ++ "` (expected ir, asm, obj or exe)")

/-- the stage that the name of an output file stands for -/
def ofPath (p : Path) : Stage :=
  match p.extension? with
  | some "ir" => ir
  | some "s" | some "asm" => asm
  | some "o" => obj
  | _ => exe

/-- whether the output is a text -/
def isText : Stage → Bool
  | ir | asm => true
  | obj | exe => false

/-- the extension of an output file; an executable has none -/
def extension : Stage → String
  | ir => "ir"
  | asm => "s"
  | obj => "o"
  | exe => ""

end Stage
end ThreeMachines
