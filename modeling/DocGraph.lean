import DocGraph.Command.Arguments
import DocGraph.Command.Basic
import DocGraph.Command.Run
import DocGraph.Command.Session
import DocGraph.Config
import DocGraph.Decimal.Binary
import DocGraph.Decimal.Layout
import DocGraph.Decimal.Read
import DocGraph.Decimal.Shortest
import DocGraph.Document
import DocGraph.Export
import DocGraph.Fields
import DocGraph.File.Entry
import DocGraph.File.Load
import DocGraph.File.Name
import DocGraph.File.Tree
import DocGraph.Gzip.Bits
import DocGraph.Gzip.Checksum
import DocGraph.Gzip.Code
import DocGraph.Gzip.Inflate
import DocGraph.Gzip.Member
import DocGraph.Heap
import DocGraph.Import
import DocGraph.Index
import DocGraph.Json.Basic
import DocGraph.Json.Read
import DocGraph.Json.Token
import DocGraph.Json.Write
import DocGraph.Log.Event
import DocGraph.Log.Filter
import DocGraph.Main
import DocGraph.Number
import DocGraph.Numeral
import DocGraph.Path.Render
import DocGraph.Path.Resolve
import DocGraph.Path.Scan
import DocGraph.Proofs.Rendering
import DocGraph.Proofs.Walk
import DocGraph.Search.Comparator
import DocGraph.Search.Error
import DocGraph.Search.Key
import DocGraph.Search.Occurrence
import DocGraph.Search.Structural
import DocGraph.Search.Visited
import DocGraph.Text.Blank
import DocGraph.Text.Digit
import DocGraph.Text.Utf8
import DocGraph.Text.Visible
import DocGraph.Toml.Basic
import DocGraph.Toml.Lexical
import DocGraph.Toml.Read
import DocGraph.Toml.Write
import DocGraph.Unmarked
import DocGraph.Value
import DocGraph.Yaml.Basic
import DocGraph.Yaml.Cursor
import DocGraph.Yaml.Key
import DocGraph.Yaml.Node
import DocGraph.Yaml.OfJson
import DocGraph.Yaml.Read
import DocGraph.Yaml.Scalar
import DocGraph.Yaml.Schema
import DocGraph.Yaml.Style
import DocGraph.Yaml.Token
import DocGraph.Yaml.Token.Lexer
import DocGraph.Yaml.Write
import DocGraph.Proofs.LevelOrder
import DocGraph.Proofs.Tour
import DocGraph.Proofs.Bisimulation
import DocGraph.Proofs.PlainKey
import DocGraph.Proofs.Grammar
import DocGraph.Proofs.Resolution
import DocGraph.Proofs.Unfolding
import DocGraph.Proofs.Composition
import DocGraph.Proofs.Isolation
import DocGraph.Proofs.Quoting
import DocGraph.Proofs.Expansion
import DocGraph.Proofs.Renaming
import DocGraph.Proofs.RoundTrip
import DocGraph.Proofs.Below
import DocGraph.Proofs.Decoding
import DocGraph.Proofs.Agreement
import DocGraph.Proofs.Doubles
import DocGraph.Proofs.Reading
import DocGraph.Proofs.Loading
import DocGraph.Proofs.ExitStatus
import DocGraph.Proofs.DepthFirst
import DocGraph.Proofs.Coverage
import DocGraph.Proofs.Conversion
import DocGraph.Proofs.Equality
import DocGraph.Proofs.Transitivity
import DocGraph.Proofs.Ending
import DocGraph.Proofs.Nesting
import DocGraph.Proofs.Rounds
import DocGraph.Proofs.Midpoints
import DocGraph.Proofs.NumberText
import DocGraph.Proofs.Entries
import DocGraph.Proofs.Unambiguous
import DocGraph.Proofs.Refinement
import DocGraph.Proofs.History
import DocGraph.Proofs.Formats
import DocGraph.Proofs.Fallback
import DocGraph.Proofs.Position
