import ThreeMachines.Build.Config
import ThreeMachines.Build.Host
import ThreeMachines.Build.Path
import ThreeMachines.Build.Pipeline
import ThreeMachines.Build.Stage
import ThreeMachines.Build.Tree
import ThreeMachines.Build.Workspace
import ThreeMachines.Closure.Code
import ThreeMachines.Closure.Native
import ThreeMachines.Closure.Op
import ThreeMachines.Closure.Run
import ThreeMachines.Code.Error
import ThreeMachines.Code.Generator
import ThreeMachines.Code.Instr
import ThreeMachines.Code.Label
import ThreeMachines.Code.Listing
import ThreeMachines.Code.Machine
import ThreeMachines.Command.Arguments
import ThreeMachines.Command.Option
import ThreeMachines.Command.Run
import ThreeMachines.Compile
import ThreeMachines.Data.Json
import ThreeMachines.Data.Toml
import ThreeMachines.Data.Word
import ThreeMachines.Main
import ThreeMachines.Native.Instr
import ThreeMachines.Native.Snippet
import ThreeMachines.Native.Unit
import ThreeMachines.Proofs.Acceptance.Machines
import ThreeMachines.Proofs.Acceptance.Names
import ThreeMachines.Proofs.Acceptance.Steps
import ThreeMachines.Proofs.AddressOrder
import ThreeMachines.Proofs.Agreement
import ThreeMachines.Proofs.Annotations
import ThreeMachines.Proofs.Blocks
import ThreeMachines.Proofs.Captures
import ThreeMachines.Proofs.Closure.Acceptance
import ThreeMachines.Proofs.Closure.Blocks
import ThreeMachines.Proofs.Closure.Calls
import ThreeMachines.Proofs.Closure.Changes
import ThreeMachines.Proofs.Closure.Correctness
import ThreeMachines.Proofs.Closure.Depths
import ThreeMachines.Proofs.Closure.Emission
import ThreeMachines.Proofs.Closure.Fragments
import ThreeMachines.Proofs.Closure.Functions
import ThreeMachines.Proofs.Closure.Labels
import ThreeMachines.Proofs.Closure.Literals
import ThreeMachines.Proofs.Closure.Lowering
import ThreeMachines.Proofs.Closure.Operations
import ThreeMachines.Proofs.Closure.Places
import ThreeMachines.Proofs.Closure.Scopes
import ThreeMachines.Proofs.Closure.World
import ThreeMachines.Proofs.Confinement
import ThreeMachines.Proofs.Data.Forms
import ThreeMachines.Proofs.Data.RoundTrip
import ThreeMachines.Proofs.Depths
import ThreeMachines.Proofs.Discipline
import ThreeMachines.Proofs.Environments
import ThreeMachines.Proofs.Evaluation
import ThreeMachines.Proofs.Expressions
import ThreeMachines.Proofs.FunctionFree
import ThreeMachines.Proofs.Generation
import ThreeMachines.Proofs.Globals
import ThreeMachines.Proofs.Instructions
import ThreeMachines.Proofs.Labels.Allocation
import ThreeMachines.Proofs.Labels.Assembly
import ThreeMachines.Proofs.Labels.Balance
import ThreeMachines.Proofs.Labels.Histories
import ThreeMachines.Proofs.Labels.Sessions
import ThreeMachines.Proofs.Labels.Soundness
import ThreeMachines.Proofs.Labels.Targets
import ThreeMachines.Proofs.LambdaTables
import ThreeMachines.Proofs.Limits
import ThreeMachines.Proofs.Literals
import ThreeMachines.Proofs.Native.Allocation
import ThreeMachines.Proofs.Native.Correspondence
import ThreeMachines.Proofs.Native.Execution
import ThreeMachines.Proofs.Native.Layout
import ThreeMachines.Proofs.Native.Memory
import ThreeMachines.Proofs.Native.Operators
import ThreeMachines.Proofs.Native.Processor
import ThreeMachines.Proofs.Native.Snippets
import ThreeMachines.Proofs.Occurrences
import ThreeMachines.Proofs.Parsing.Completeness
import ThreeMachines.Proofs.Parsing.Continuations
import ThreeMachines.Proofs.Parsing.Grammar
import ThreeMachines.Proofs.Parsing.Phrases
import ThreeMachines.Proofs.Parsing.Places
import ThreeMachines.Proofs.Parsing.Programs
import ThreeMachines.Proofs.Parsing.Readers
import ThreeMachines.Proofs.Parsing.Rendering
import ThreeMachines.Proofs.Parsing.Scanning
import ThreeMachines.Proofs.Parsing.Soundness
import ThreeMachines.Proofs.Parsing.WellFormed
import ThreeMachines.Proofs.Placement
import ThreeMachines.Proofs.Refinement
import ThreeMachines.Proofs.Registrations
import ThreeMachines.Proofs.Simulation
import ThreeMachines.Proofs.Skeletons
import ThreeMachines.Proofs.Stack.Acceptance
import ThreeMachines.Proofs.Stack.Calls
import ThreeMachines.Proofs.Stack.Correctness
import ThreeMachines.Proofs.Stack.Depths
import ThreeMachines.Proofs.Stack.Emission
import ThreeMachines.Proofs.Stack.Fragments
import ThreeMachines.Proofs.Stack.Labels
import ThreeMachines.Proofs.Stack.Lowering
import ThreeMachines.Proofs.Stack.Operations
import ThreeMachines.Proofs.Stack.Refinement
import ThreeMachines.Proofs.Stack.Scopes
import ThreeMachines.Proofs.Stack.World
import ThreeMachines.Proofs.Steps
import ThreeMachines.Proofs.Success
import ThreeMachines.Proofs.Texts
import ThreeMachines.Proofs.Vector.Acceptance
import ThreeMachines.Proofs.Vector.Calls
import ThreeMachines.Proofs.Vector.Correctness
import ThreeMachines.Proofs.Vector.Depths
import ThreeMachines.Proofs.Vector.Emission
import ThreeMachines.Proofs.Vector.Fragments
import ThreeMachines.Proofs.Vector.Labels
import ThreeMachines.Proofs.Vector.Layout
import ThreeMachines.Proofs.Vector.Literals
import ThreeMachines.Proofs.Vector.Lowering
import ThreeMachines.Proofs.Vector.Operations
import ThreeMachines.Proofs.Vector.World
import ThreeMachines.Proofs.Words
import ThreeMachines.Run.Arithmetic
import ThreeMachines.Run.Block
import ThreeMachines.Run.Execution
import ThreeMachines.Run.Fault
import ThreeMachines.Run.Heap
import ThreeMachines.Run.Image
import ThreeMachines.Run.OperandStack
import ThreeMachines.Scope.Binding
import ThreeMachines.Scope.Table
import ThreeMachines.Stack.Code
import ThreeMachines.Stack.Native
import ThreeMachines.Stack.Op
import ThreeMachines.Stack.Run
import ThreeMachines.Syntax.Data
import ThreeMachines.Syntax.Error
import ThreeMachines.Syntax.Expr
import ThreeMachines.Syntax.Names
import ThreeMachines.Syntax.Outline
import ThreeMachines.Syntax.Parse
import ThreeMachines.Syntax.Scan
import ThreeMachines.Syntax.Token
import ThreeMachines.Text.Blank
import ThreeMachines.Text.Hex
import ThreeMachines.Text.Line
import ThreeMachines.Text.Quoted
import ThreeMachines.Text.Unseen
import ThreeMachines.Vector.Code
import ThreeMachines.Vector.Native
import ThreeMachines.Vector.Op
import ThreeMachines.Vector.Run
import ThreeMachines.Proofs.Scopes.Chains
import ThreeMachines.Proofs.Scopes.Changes
import ThreeMachines.Proofs.Scopes.Histories
import ThreeMachines.Proofs.Lexing.Trivia
import ThreeMachines.Proofs.Lexing.Lexemes
import ThreeMachines.Proofs.Lexing.Tiles
import ThreeMachines.Proofs.Lexing.Layouts
import ThreeMachines.Proofs.Files.Paths
import ThreeMachines.Proofs.Files.Trees
import ThreeMachines.Proofs.Failures.Tables
import ThreeMachines.Proofs.Files.Sources
import ThreeMachines.Proofs.Failures.Steps
import ThreeMachines.Proofs.Vector.Failures
import ThreeMachines.Proofs.Closure.Failures
import ThreeMachines.Proofs.Stack.Failures
import ThreeMachines.Proofs.Failures.Programs
import ThreeMachines.Proofs.Listings.Lines
import ThreeMachines.Proofs.Listings.Instructions
import ThreeMachines.Proofs.Listings.Programs
import ThreeMachines.Proofs.Listings.Names
import ThreeMachines.Proofs.Stack.Names
import ThreeMachines.Proofs.Closure.Names
import ThreeMachines.Proofs.Vector.Names
import ThreeMachines.Proofs.Listings.Sources
import ThreeMachines.Proofs.Heaps.Addresses
import ThreeMachines.Proofs.Heaps.Histories
