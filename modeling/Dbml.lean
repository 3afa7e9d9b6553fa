import Dbml.Command.Arguments
import Dbml.Command.Discovery
import Dbml.Command.Failure
import Dbml.Command.Options
import Dbml.Command.Output
import Dbml.Command.Parse
import Dbml.Command.Run
import Dbml.Command.Settings
import Dbml.Command.Tokens
import Dbml.Diagnostic
import Dbml.Document.Basic
import Dbml.Document.Parser
import Dbml.Document.Printer
import Dbml.Files.Path
import Dbml.Files.Pattern
import Dbml.Files.Search
import Dbml.Files.System
import Dbml.Json.Reader
import Dbml.Json.Value
import Dbml.Json.Writer
import Dbml.Main
import Dbml.Problem
import Dbml.Proofs.Command.Accounts
import Dbml.Proofs.Command.Below
import Dbml.Proofs.Command.Decoding
import Dbml.Proofs.Command.Directories
import Dbml.Proofs.Command.Discovery
import Dbml.Proofs.Command.Dump
import Dbml.Proofs.Command.Manner
import Dbml.Proofs.Command.Placement
import Dbml.Proofs.Command.Printed
import Dbml.Proofs.Command.Refused
import Dbml.Proofs.Command.Settings
import Dbml.Proofs.Command.Unreadable
import Dbml.Proofs.Command.Visits
import Dbml.Proofs.Document.Concatenation
import Dbml.Proofs.Document.Cursor
import Dbml.Proofs.Document.Derivation
import Dbml.Proofs.Document.EnumValues
import Dbml.Proofs.Document.Formatting
import Dbml.Proofs.Document.Grammar
import Dbml.Proofs.Document.Hints
import Dbml.Proofs.Document.Insertion
import Dbml.Proofs.Document.Layout
import Dbml.Proofs.Document.LineEnds
import Dbml.Proofs.Document.Misfit
import Dbml.Proofs.Document.Nodes
import Dbml.Proofs.Document.Position
import Dbml.Proofs.Document.Progress
import Dbml.Proofs.Document.Quoting
import Dbml.Proofs.Document.RoundTrip
import Dbml.Proofs.Document.Stage
import Dbml.Proofs.Document.Tracking
import Dbml.Proofs.Document.Truncation
import Dbml.Proofs.Document.Turns
import Dbml.Proofs.Document.WellFormed
import Dbml.Proofs.Document.Writable
import Dbml.Proofs.Files.Path
import Dbml.Proofs.Files.Pattern
import Dbml.Proofs.Files.Search
import Dbml.Proofs.Files.Tree
import Dbml.Proofs.Json.RoundTrip
import Dbml.Proofs.Json.Spelling
import Dbml.Proofs.Text.Cut
import Dbml.Proofs.Text.Place
import Dbml.Proofs.Token.Front
import Dbml.Proofs.Token.LineEnds
import Dbml.Proofs.Token.Partition
import Dbml.Proofs.Token.Reading
import Dbml.Proofs.Token.Spacing
import Dbml.Proofs.Token.Splice
import Dbml.Proofs.Token.Stream
import Dbml.Proofs.Token.Unclosed
import Dbml.Schema.Basic
import Dbml.Schema.Json
import Dbml.Text.Cut
import Dbml.Text.Hex
import Dbml.Text.Place
import Dbml.Text.Reader
import Dbml.Token.Basic
import Dbml.Token.Kind
import Dbml.Token.Lexeme
import Dbml.Token.Stream
import Dbml.Toml.Blank
import Dbml.Toml.DateTime
import Dbml.Toml.Number
import Dbml.Toml.Quoted
import Dbml.Toml.Reader
import Dbml.Toml.Value
import Dbml.Proofs.Command.Differences
