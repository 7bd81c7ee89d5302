import Labyrinth.Builtin
import Labyrinth.Code.Instruction
import Labyrinth.Code.Listing
import Labyrinth.Code.OfProgram
import Labyrinth.CommandLine.Arguments
import Labyrinth.CommandLine.Execute
import Labyrinth.Double.Binary
import Labyrinth.Double.Layout
import Labyrinth.Double.Numeral
import Labyrinth.Double.Shortest
import Labyrinth.Files.Access
import Labyrinth.Files.Path
import Labyrinth.Files.Tree
import Labyrinth.Json.Basic
import Labyrinth.Json.Reader
import Labyrinth.Location
import Labyrinth.Machine.Fault
import Labyrinth.Machine.Linked
import Labyrinth.Machine.Run
import Labyrinth.Machine.Stack
import Labyrinth.Machine.Step
import Labyrinth.Machine.Store
import Labyrinth.Machine.Value
import Labyrinth.Main
import Labyrinth.Program
import Labyrinth.Program.Outline
import Labyrinth.Program.Parser
import Labyrinth.Report
import Labyrinth.Settings
import Labyrinth.Settings.Document
import Labyrinth.Settings.File
import Labyrinth.Source
import Labyrinth.Text.Blank
import Labyrinth.Text.Numeral
import Labyrinth.Text.Pieces
import Labyrinth.Token
import Labyrinth.Token.Scan
import Labyrinth.Ty
import Labyrinth.Typing.Check
import Labyrinth.Typing.Context
import Labyrinth.World
import Labyrinth.World.Agent
import Labyrinth.World.Maze
import Labyrinth.Proofs.Machine.Steps
import Labyrinth.Proofs.Machine.Carries
import Labyrinth.Proofs.Accepted
import Labyrinth.Proofs.World.Grid
import Labyrinth.Proofs.Code.Places
import Labyrinth.Proofs.Code.Routines
import Labyrinth.Proofs.Code.Takes
import Labyrinth.Proofs.Correctness
import Labyrinth.Proofs.Operands
import Labyrinth.Proofs.Types
import Labyrinth.Proofs.Code.Sites
import Labyrinth.Proofs.Widening
import Labyrinth.Proofs.Machine.Activations
import Labyrinth.Proofs.Machine.Log
import Labyrinth.Proofs.Code.Flow
import Labyrinth.Proofs.Returns
import Labyrinth.Proofs.Result
import Labyrinth.Proofs.Renaming.Names
import Labyrinth.Proofs.Renaming.Spots
import Labyrinth.Proofs.Renaming.Views
import Labyrinth.Proofs.Renaming.Twins
import Labyrinth.Proofs.Scopes
import Labyrinth.Proofs.Grounded
import Labyrinth.Proofs.Walk
import Labyrinth.Proofs.Clearing
import Labyrinth.Proofs.Limits
import Labyrinth.Proofs.Typing.Decision
import Labyrinth.Proofs.Parsing.Sentences
import Labyrinth.Proofs.Parsing.Fronts
import Labyrinth.Proofs.Parsing.Summit
import Labyrinth.Proofs.Linking
import Labyrinth.Proofs.Scanning.Placement
import Labyrinth.Proofs.Unused
import Labyrinth.Proofs.Listing
import Labyrinth.Proofs.Scanning.Spaced
import Labyrinth.Proofs.Parsing.Nesting
import Labyrinth.Proofs.Parsing.Recast
import Labyrinth.Proofs.Parsing.Sequels
import Labyrinth.Proofs.Concatenation
import Labyrinth.Proofs.Double.Finite
import Labyrinth.Proofs.Json.Reading
import Labyrinth.Proofs.Settings.Document
import Labyrinth.Proofs.Files.Paths
import Labyrinth.Proofs.Files.Places
import Labyrinth.Proofs.Files.Disk
import Labyrinth.Proofs.Settings.Saving
import Labyrinth.Proofs.World.Numbers
import Labyrinth.Proofs.Scanning.Stray
import Labyrinth.Proofs.Parsing.Progress
import Labyrinth.Proofs.Parsing.Recursion
import Labyrinth.Proofs.Parsing.Termination
import Labyrinth.Proofs.Parsing.Misfits
import Labyrinth.Proofs.World.Writes
import Labyrinth.Proofs.Settings.Resaving
import Labyrinth.Proofs.CommandLine.Config
import Labyrinth.Proofs.Settings.Fields
import Labyrinth.Proofs.Parsing.Counters
import Labyrinth.Proofs.Arithmetic.Integers
import Labyrinth.Proofs.Arithmetic.Exact
