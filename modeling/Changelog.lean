import Changelog.Change.Basic
import Changelog.Change.Order
import Changelog.Command.Arguments
import Changelog.Command.Run
import Changelog.Document
import Changelog.Entry
import Changelog.FileTree.Basic
import Changelog.FileTree.Changes
import Changelog.FileTree.Repositories
import Changelog.FileTree.Settings
import Changelog.Generate
import Changelog.Header
import Changelog.Heading.Basic
import Changelog.Heading.Table
import Changelog.History.Basic
import Changelog.History.Heap
import Changelog.History.Walk
import Changelog.Interchange
import Changelog.Issue
import Changelog.Json.Basic
import Changelog.Json.Fields
import Changelog.Json.Printer
import Changelog.Json.Reader
import Changelog.Json.Token
import Changelog.Main
import Changelog.Range
import Changelog.Repository.Basic
import Changelog.Repository.Log
import Changelog.Repository.Message
import Changelog.Repository.Object
import Changelog.Repository.ObjectId
import Changelog.Repository.Options
import Changelog.Repository.Reference
import Changelog.Repository.ReferenceName
import Changelog.Repository.Revision
import Changelog.Repository.Sha1
import Changelog.Repository.Signature
import Changelog.Section.Basic
import Changelog.Section.Index
import Changelog.Section.Markdown
import Changelog.Settings.Basic
import Changelog.Settings.Document
import Changelog.Settings.File
import Changelog.Storage.Deflate
import Changelog.Storage.Home
import Changelog.Storage.Object
import Changelog.Storage.Pack
import Changelog.Storage.Wrap
import Changelog.Text.Blank
import Changelog.Text.Decimal
import Changelog.Text.Hex
import Changelog.Text.Line
import Changelog.Text.Run
import Changelog.Text.Utf8
import Changelog.Toml.Lexeme
import Changelog.Toml.Moment
import Changelog.Toml.Printer
import Changelog.Toml.Statement
import Changelog.Proofs.Change.Key
import Changelog.Proofs.Change.Levels
import Changelog.Proofs.Change.Order
import Changelog.Proofs.Change.Stable
import Changelog.Proofs.Command.Arguments
import Changelog.Proofs.Command.Run
import Changelog.Proofs.FileTree.Nearest
import Changelog.Proofs.FileTree.Path
import Changelog.Proofs.FirstSeen
import Changelog.Proofs.Header.Grammar
import Changelog.Proofs.Header.Pattern
import Changelog.Proofs.Heading.Visible
import Changelog.Proofs.Heading.Writes
import Changelog.Proofs.History.Between
import Changelog.Proofs.History.Coherent
import Changelog.Proofs.History.Expand
import Changelog.Proofs.History.HeapOrder
import Changelog.Proofs.History.Timely
import Changelog.Proofs.Interchange
import Changelog.Proofs.Interchange.Forms
import Changelog.Proofs.Issue.Places
import Changelog.Proofs.Issue.References
import Changelog.Proofs.Json.Accepted
import Changelog.Proofs.Json.Grammar
import Changelog.Proofs.Json.Printed
import Changelog.Proofs.Json.Record
import Changelog.Proofs.OctetOrder
import Changelog.Proofs.Repository.Chronology
import Changelog.Proofs.Repository.Decoding
import Changelog.Proofs.Repository.Ends
import Changelog.Proofs.Repository.Log
import Changelog.Proofs.Repository.Message
import Changelog.Proofs.Repository.References
import Changelog.Proofs.Repository.SingleLine
import Changelog.Proofs.Repository.Tiling
import Changelog.Proofs.Repository.Unborn
import Changelog.Proofs.Repository.WellFormed
import Changelog.Proofs.Repository.Written
import Changelog.Proofs.Section.Conservation
import Changelog.Proofs.Section.Decoding
import Changelog.Proofs.Section.Dependence
import Changelog.Proofs.Section.Index
import Changelog.Proofs.Section.Lines
import Changelog.Proofs.Section.Order
import Changelog.Proofs.Settings.FirstFault
import Changelog.Proofs.Settings.Valid
import Changelog.Proofs.Settings.Written
import Changelog.Proofs.Steps
import Changelog.Proofs.Storage.Wrap
import Changelog.Proofs.Text.Alignment
import Changelog.Proofs.Text.CharacterOctets
import Changelog.Proofs.Text.Pattern
import Changelog.Proofs.Text.RoundTrip
import Changelog.Proofs.Toml.Spelling
