/-
A directory tree and a set of tools, as a value.

`Workspace` is a `Host`: files are those of its tree, and a tool may change its output file and nothing else.
-/
import ThreeMachines.Build.Tree

namespace ThreeMachines

/-- what a tool does to its output file -/
inductive OutputChange where
  | keep
  | write (bytes : ByteArray)
  | remove

/-- a tool answers to its arguments and to the files -/
abbrev Tool := List String → Tree → ToolOutcome × OutputChange

structure Workspace where
  tree : Tree
  /-- the tools that can be started, by their names -/
  tool? : String → Option Tool

/-- do to a file what a tool does -/
def Tree.change (t : Tree) (p : Path) : OutputChange → Tree
  | .keep => t
  | .write bytes =>
    match t.write p bytes with
    | .ok t => t
    | .error _ => t
  | .remove => t.remove p

/-- run a tool, if it can be started with these arguments -/
def Workspace.run (w : Workspace) (name : String) (args : List String) : ToolOutcome × OutputChange :=
  if (name :: args).any fun text => text.toList.contains '\x00' then
    (.notStarted "nul byte found in provided data", .keep)
  else
    match w.tool? name with
    | some tool => tool args w.tree
    | none => (.notStarted (w.tree.startError name).text, .keep)

/-- work on a workspace -/
abbrev WorkspaceM := StateM Workspace

instance : Host WorkspaceM where
  read p := do return (← get).tree.read p
  write p text := do
    let w ← get
    match w.tree.write p text.toUTF8 with
    | .ok tree =>
      set { w with tree }
      return .ok ()
    | .error e => return .error e
  remove p := modify fun w => { w with tree := w.tree.remove p }
  isFile p := do return (← get).tree.isFile p
  runTool name args output := do
    let w ← get
    let (outcome, change) := w.run name args
    set { w with tree := w.tree.change output change }
    return outcome

end ThreeMachines
