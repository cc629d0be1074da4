import Toolpath.Block.Basic
import Toolpath.Block.Kind
import Toolpath.Block.Mesh
import Toolpath.Block.Payload
import Toolpath.Chunk.Basic
import Toolpath.Chunk.Error
import Toolpath.Chunk.Reader
import Toolpath.Chunk.Stream
import Toolpath.Chunk.Writer
import Toolpath.CommandLine.Arguments
import Toolpath.CommandLine.Demo
import Toolpath.CommandLine.Files
import Toolpath.CommandLine.Help
import Toolpath.CommandLine.Report
import Toolpath.CommandLine.Run
import Toolpath.CommandLine.Settings
import Toolpath.Decimal.Fixed
import Toolpath.Decimal.Read
import Toolpath.Decimal.Shortest
import Toolpath.Document.Basic
import Toolpath.Document.Machine
import Toolpath.Document.Scope
import Toolpath.Document.Segment
import Toolpath.Gcode.Command
import Toolpath.Gcode.Line
import Toolpath.Gcode.Statement
import Toolpath.Geometry.Placement
import Toolpath.Geometry.Tour
import Toolpath.Geometry.Vector
import Toolpath.Main
import Toolpath.Number.Binary
import Toolpath.Number.Double
import Toolpath.Number.Rounding
import Toolpath.Number.Scalar
import Toolpath.Project.Fields
import Toolpath.Project.File
import Toolpath.Project.Record
import Toolpath.Proofs.Block.Derived
import Toolpath.Proofs.Block.Lengths
import Toolpath.Proofs.Block.Slices
import Toolpath.Proofs.Chunk.Acceptance
import Toolpath.Proofs.Chunk.Cutting
import Toolpath.Proofs.Chunk.Frames
import Toolpath.Proofs.Chunk.Framing
import Toolpath.Proofs.Chunk.Sessions
import Toolpath.Proofs.Chunk.Streams
import Toolpath.Proofs.Chunk.Trees
import Toolpath.Proofs.Decimal.Texts
import Toolpath.Proofs.Document.Acyclic
import Toolpath.Proofs.Document.Conversion
import Toolpath.Proofs.Document.Erasing
import Toolpath.Proofs.Document.Foregoing
import Toolpath.Proofs.Document.Forest
import Toolpath.Proofs.Document.Freshness
import Toolpath.Proofs.Document.Loops
import Toolpath.Proofs.Document.Muting
import Toolpath.Proofs.Document.Outlines
import Toolpath.Proofs.Document.Patterns
import Toolpath.Proofs.Document.Placements
import Toolpath.Proofs.Document.Regeneration
import Toolpath.Proofs.Document.Regular
import Toolpath.Proofs.Document.Scoping
import Toolpath.Proofs.Document.Sparing
import Toolpath.Proofs.Gcode.Remarks
import Toolpath.Proofs.Gcode.Rows
import Toolpath.Proofs.Gcode.Words
import Toolpath.Proofs.Geometry.Greedy
import Toolpath.Proofs.Geometry.Tours
import Toolpath.Proofs.Number.Exact
import Toolpath.Proofs.Number.Marks
import Toolpath.Proofs.Number.Order
import Toolpath.Proofs.Project.Clearing
import Toolpath.Proofs.Project.Clipboard
import Toolpath.Proofs.Project.Drafts
import Toolpath.Proofs.Project.Fields
import Toolpath.Proofs.Project.Files
import Toolpath.Proofs.Project.Harvests
import Toolpath.Proofs.Project.Insertions
import Toolpath.Proofs.Project.Made
import Toolpath.Proofs.Project.Outward
import Toolpath.Proofs.Project.Pastes
import Toolpath.Proofs.Project.Records
import Toolpath.Proofs.Project.Refusals
import Toolpath.Proofs.Project.RoundTrip
import Toolpath.Proofs.Project.Truncation
import Toolpath.Proofs.Simulation.Boring
import Toolpath.Proofs.Simulation.FreeTexts
import Toolpath.Proofs.Simulation.Holes
import Toolpath.Proofs.Simulation.Independence
import Toolpath.Proofs.Simulation.Legs
import Toolpath.Proofs.Simulation.ReadBack
import Toolpath.Proofs.Simulation.Stepping
import Toolpath.Proofs.Simulation.Sweeps
import Toolpath.Proofs.Simulation.Unsupported
import Toolpath.Proofs.Stock.Carving
import Toolpath.Proofs.Stock.Cells
import Toolpath.Proofs.Stock.Representation
import Toolpath.Proofs.Stock.Scanning
import Toolpath.Proofs.Stock.Solid
import Toolpath.Proofs.Synthesis.Chaining
import Toolpath.Proofs.Synthesis.Clearance
import Toolpath.Proofs.Synthesis.Commands
import Toolpath.Proofs.Synthesis.Composition
import Toolpath.Proofs.Synthesis.Depths
import Toolpath.Proofs.Synthesis.Drilling
import Toolpath.Proofs.Synthesis.Endings
import Toolpath.Proofs.Synthesis.Extents
import Toolpath.Proofs.Synthesis.Feeds
import Toolpath.Proofs.Synthesis.Fragments
import Toolpath.Proofs.Synthesis.Histories
import Toolpath.Proofs.Synthesis.Memory
import Toolpath.Proofs.Synthesis.Programs
import Toolpath.Proofs.Synthesis.Rasters
import Toolpath.Proofs.Synthesis.Reaching
import Toolpath.Proofs.Synthesis.Spindle
import Toolpath.Proofs.Synthesis.Statements
import Toolpath.Proofs.Synthesis.Strokes
import Toolpath.Proofs.Synthesis.Suppression
import Toolpath.Proofs.Synthesis.Traverses
import Toolpath.Proofs.Synthesis.Visits
import Toolpath.Proofs.Text.Lines
import Toolpath.Proofs.Tree.Acyclic
import Toolpath.Proofs.Tree.Attaching
import Toolpath.Proofs.Tree.Barriers
import Toolpath.Proofs.Tree.Branches
import Toolpath.Proofs.Tree.Copies
import Toolpath.Proofs.Tree.Duplicates
import Toolpath.Proofs.Tree.Enlarging
import Toolpath.Proofs.Tree.Levels
import Toolpath.Proofs.Tree.Outermost
import Toolpath.Proofs.Tree.Planting
import Toolpath.Proofs.Tree.Pruning
import Toolpath.Proofs.Tree.Refilling
import Toolpath.Proofs.Tree.Relabeling
import Toolpath.Proofs.Tree.Removal
import Toolpath.Proofs.Tree.Runs
import Toolpath.Proofs.Tree.Sequences
import Toolpath.Proofs.Tree.Subtrees
import Toolpath.Proofs.Tree.Walks
import Toolpath.Simulation.Head
import Toolpath.Simulation.Path
import Toolpath.Simulation.Simulator
import Toolpath.Stock.Carve
import Toolpath.Stock.Field
import Toolpath.Synthesis.Blocks
import Toolpath.Synthesis.Chain
import Toolpath.Synthesis.Moves
import Toolpath.Synthesis.Passes
import Toolpath.Synthesis.Program
import Toolpath.Text.Blank
import Toolpath.Text.Json
import Toolpath.Text.Lines
import Toolpath.Text.Utf8
import Toolpath.Toml.Document
import Toolpath.Toml.Scalar
import Toolpath.Toml.Value
import Toolpath.Tree.Arena
import Toolpath.Tree.Basic
import Toolpath.Tree.Branch
import Toolpath.Tree.Copying
import Toolpath.Tree.Links
import Toolpath.Tree.Order
import Toolpath.Tree.Ownership
import Toolpath.Tree.Relink
import Toolpath.Tree.Row
