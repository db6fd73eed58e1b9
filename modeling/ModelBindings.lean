import ModelBindings.Cli.Arguments
import ModelBindings.Cli.Grammar
import ModelBindings.Cli.Outline
import ModelBindings.Cli.Run
import ModelBindings.Compile
import ModelBindings.Compile.Pool
import ModelBindings.Component
import ModelBindings.Component.File
import ModelBindings.Double.Basic
import ModelBindings.Double.Shortest
import ModelBindings.Files.Disk
import ModelBindings.Files.Path
import ModelBindings.Files.Publish
import ModelBindings.Json.Decoder
import ModelBindings.Json.Fault
import ModelBindings.Json.Lexeme
import ModelBindings.Json.Path
import ModelBindings.Json.Printer
import ModelBindings.Json.Reader
import ModelBindings.Json.Report
import ModelBindings.Json.Skip
import ModelBindings.Json.Value
import ModelBindings.Main
import ModelBindings.Manifest
import ModelBindings.Proofs.Compile.InOrder
import ModelBindings.Recs.Choice
import ModelBindings.Recs.Mode
import ModelBindings.Recs.Scalar
import ModelBindings.Recs.TypeExpr
import ModelBindings.Recs.Version
import ModelBindings.Schema.Document
import ModelBindings.Schema.Node
import ModelBindings.Schema.Query
import ModelBindings.Schema.Source
import ModelBindings.Text.Blank
import ModelBindings.Text.Printable
import ModelBindings.Text.Quoted
import ModelBindings.Text.Utf8
import ModelBindings.Typing
import ModelBindings.Proofs.Compile.Pool
import ModelBindings.Proofs.Json.Written
import ModelBindings.Proofs.Json.Lexeme
import ModelBindings.Proofs.Json.Reader
import ModelBindings.Proofs.Json.Skip
import ModelBindings.Proofs.Json.Decoder
import ModelBindings.Proofs.Json.Record
import ModelBindings.Proofs.Schema.Document
import ModelBindings.Proofs.Json.Printer
import ModelBindings.Proofs.Recs.TypeExpr
import ModelBindings.Proofs.Component.File
import ModelBindings.Proofs.Compile.Schedule
import ModelBindings.Proofs.Schema.Query
import ModelBindings.Proofs.Cli.Generate
import ModelBindings.Proofs.Json.Sound
import ModelBindings.Proofs.Json.Formed
import ModelBindings.Proofs.Json.Taken
import ModelBindings.Proofs.Json.Passed
import ModelBindings.Proofs.Json.Unique
import ModelBindings.Proofs.Json.Front
import ModelBindings.Proofs.Documents
import ModelBindings.Proofs.Json.Settled
import ModelBindings.Proofs.Schema.Nested
import ModelBindings.Proofs.Component.Keys
import ModelBindings.Proofs.Manifest
import ModelBindings.Proofs.Component.Literal
import ModelBindings.Proofs.Compile.Sources
import ModelBindings.Proofs.Compile.History
import ModelBindings.Proofs.Text.Utf8
import ModelBindings.Proofs.Compile.Replies
import ModelBindings.Proofs.Json.Compact
import ModelBindings.Proofs.Cli.Inspect
import ModelBindings.Proofs.Files.Locate
import ModelBindings.Proofs.Files.Publish
import ModelBindings.Proofs.Recs.Readable
import ModelBindings.Proofs.Typing
import ModelBindings.Proofs.Files.AllOrNothing
import ModelBindings.Proofs.Json.Faults
import ModelBindings.Proofs.Schema.FirstFault
import ModelBindings.Proofs.Schema.Form
import ModelBindings.Proofs.Recs.Modes
import ModelBindings.Proofs.Json.Sole
import ModelBindings.Proofs.Manifest.Document
import ModelBindings.Proofs.Recs.Package
import ModelBindings.Proofs.Recs.Version
import ModelBindings.Proofs.Json.Report
import ModelBindings.Proofs.Schema.Anchors
import ModelBindings.Proofs.Recs.Levels
import ModelBindings.Proofs.Schema.Depth
