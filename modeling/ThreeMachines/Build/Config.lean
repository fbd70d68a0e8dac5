/-
The configuration of a build.

It is written in two tables, `compiler` and `toolchain`, of which every key has a default. Keys that mean nothing are
refused, except in `toolchain`.
-/
import ThreeMachines.Build.Pipeline
import ThreeMachines.Data.Toml

namespace ThreeMachines

structure Config where
  machine : Machine
  /-- the stage, if it is not to be told from the output -/
  emit : Option Stage
  tools : Toolchain
deriving DecidableEq, Repr

namespace Config

def standard : Config := ⟨.stack, none, .standard⟩

/-- set a key of the table `compiler` -/
def setCompiler? (c : Config) : String × Toml.Value → Option Config
  | ("machine", .text name) => (Machine.ofName name).toOption.map fun machine => { c with machine }
  | ("emit", .text name) => (Stage.ofName name).toOption.map fun stage => { c with emit := some stage }
  | _ => none

/-- set a key of the table `toolchain` -/
def setTool? (t : Toolchain) : String × Toml.Value → Option Toolchain
  | ("assembler", .text assembler) => some { t with assembler }
  | ("linker", .text linker) => some { t with linker }
  | ("keep_intermediates", .bool keepIntermediates) => some { t with keepIntermediates }
  | (key, _) => if ["assembler", "linker", "keep_intermediates"].contains key then none else some t

/-- set what a table says -/
def setTable? (c : Config) (t : Toml.Table) : Option Config :=
  match t.name with
  | none => if t.entries.isEmpty then some c else none
  | some "compiler" => t.entries.foldlM setCompiler? c
  | some "toolchain" => (t.entries.foldlM setTool? c.tools).map fun tools => { c with tools }
  | some _ => none

/-- the configuration that a text describes -/
def parse? (text : String) : Option Config := do (← Toml.parse? text).foldlM setTable? standard

end Config
end ThreeMachines
