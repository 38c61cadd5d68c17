import PermitTypes.CommandLine.Request
import PermitTypes.CommandLine.Run
import PermitTypes.CommandLine.Scan
import PermitTypes.Decimal.Notation
import PermitTypes.Decimal.Shortest
import PermitTypes.Emit.Declaration
import PermitTypes.Emit.Filter
import PermitTypes.Emit.Lines
import PermitTypes.Emit.Naming
import PermitTypes.Emit.Permit
import PermitTypes.Emit.Property
import PermitTypes.Entries
import PermitTypes.Files.Disk
import PermitTypes.Files.Node
import PermitTypes.Files.Spot
import PermitTypes.Files.Tree
import PermitTypes.Files.Trouble
import PermitTypes.Json.Elements
import PermitTypes.Json.Fault
import PermitTypes.Json.Form
import PermitTypes.Json.Members
import PermitTypes.Json.Number
import PermitTypes.Json.Reader
import PermitTypes.Json.Record
import PermitTypes.Json.Skip.Nested
import PermitTypes.Json.Skip.Scalar
import PermitTypes.Json.Text
import PermitTypes.Json.Tree
import PermitTypes.Json.Writer
import PermitTypes.Main
import PermitTypes.Name
import PermitTypes.Path
import PermitTypes.Project.Compilation
import PermitTypes.Project.Config
import PermitTypes.Project.Console
import PermitTypes.Project.Emission
import PermitTypes.Project.Failure
import PermitTypes.Project.Init
import PermitTypes.Project.Load
import PermitTypes.Project.Sources
import PermitTypes.Proofs.Emit.Culprit
import PermitTypes.Proofs.Emit.Cutting
import PermitTypes.Proofs.Emit.Derivation
import PermitTypes.Proofs.Emit.Distinction
import PermitTypes.Proofs.Emit.Legible
import PermitTypes.Proofs.Emit.NormalForm
import PermitTypes.Proofs.Emit.Printer
import PermitTypes.Proofs.Emit.Separators
import PermitTypes.Proofs.Emit.Siblings
import PermitTypes.Proofs.Emit.Success
import PermitTypes.Proofs.Emit.Tokens
import PermitTypes.Proofs.Emit.TypeNames
import PermitTypes.Proofs.Emit.Types
import PermitTypes.Proofs.Emit.Words
import PermitTypes.Proofs.Entries
import PermitTypes.Proofs.EntryOrder
import PermitTypes.Proofs.Files.Directories
import PermitTypes.Proofs.Files.Effects
import PermitTypes.Proofs.Files.Listing
import PermitTypes.Proofs.Files.Making
import PermitTypes.Proofs.Files.Paving
import PermitTypes.Proofs.Files.Respelling
import PermitTypes.Proofs.Files.View
import PermitTypes.Proofs.Files.Walking
import PermitTypes.Proofs.Files.Writing
import PermitTypes.Proofs.Json.Arrays
import PermitTypes.Proofs.Json.Collections
import PermitTypes.Proofs.Json.Faults
import PermitTypes.Proofs.Json.Fronts
import PermitTypes.Proofs.Json.Grammar
import PermitTypes.Proofs.Json.Meaning
import PermitTypes.Proofs.Json.Nesting
import PermitTypes.Proofs.Json.Objects
import PermitTypes.Proofs.Json.Places
import PermitTypes.Proofs.Json.Reading
import PermitTypes.Proofs.Json.Records
import PermitTypes.Proofs.Json.Reordering
import PermitTypes.Proofs.Json.Room
import PermitTypes.Proofs.Json.Skipping
import PermitTypes.Proofs.Json.Strings
import PermitTypes.Proofs.Json.Unambiguity
import PermitTypes.Proofs.Json.Written
import PermitTypes.Proofs.Path.Below
import PermitTypes.Proofs.Path.Last
import PermitTypes.Proofs.Path.Order
import PermitTypes.Proofs.Path.Steps
import PermitTypes.Proofs.Project.Agreement
import PermitTypes.Proofs.Project.Beginning
import PermitTypes.Proofs.Project.Config
import PermitTypes.Proofs.Project.Delivery
import PermitTypes.Proofs.Project.Effect
import PermitTypes.Proofs.Project.Footprint
import PermitTypes.Proofs.Project.Fresh
import PermitTypes.Proofs.Project.Initialising
import PermitTypes.Proofs.Project.Mirroring
import PermitTypes.Proofs.Project.Outputs
import PermitTypes.Proofs.Project.Rendering
import PermitTypes.Proofs.Project.Repetition
import PermitTypes.Proofs.Project.Report
import PermitTypes.Proofs.Project.Settling
import PermitTypes.Proofs.Project.Starting
import PermitTypes.Proofs.Project.Traversal
import PermitTypes.Proofs.Schema.Containers
import PermitTypes.Proofs.Schema.Encoding
import PermitTypes.Proofs.Schema.Equality
import PermitTypes.Proofs.Schema.Meaning
import PermitTypes.Proofs.Schema.Reading
import PermitTypes.Proofs.Schema.Rearrangement
import PermitTypes.Proofs.Schema.RoundTrip
import PermitTypes.Proofs.Schema.Shapes
import PermitTypes.Proofs.Schema.Sorting
import PermitTypes.Proofs.Utf8
import PermitTypes.Schema.Decode
import PermitTypes.Schema.Encode
import PermitTypes.Schema.Kind
import PermitTypes.Schema.Permit
import PermitTypes.Schema.Property
import PermitTypes.Schema.Sameness
import PermitTypes.Text.Blank
import PermitTypes.Text.Quoted
import PermitTypes.Text.Shown
import PermitTypes.Text.Styled
import PermitTypes.Text.UpperCase
import PermitTypes.Text.Utf8
