import Dealias.Path.Basic
import Dealias.Path.Order
import Dealias.Path.Normalize
import Dealias.Path.Relative
import Dealias.Text.Blank
import Dealias.Text.Alphanumeric
import Dealias.Text.Bytes
import Dealias.Text.Utf8
import Dealias.Number.Rounding
import Dealias.Number.Numeral
import Dealias.OrderedMap
import Dealias.Alias.Table
import Dealias.Source.Occurrence
import Dealias.Source.Edit
import Dealias.Event
import Dealias.Store.Basic
import Dealias.Store.Memory
import Dealias.Store.Disk
import Dealias.Cache
import Dealias.Action
import Dealias.Resolution
import Dealias.Rewiring
import Dealias.Discovery
import Dealias.Report
import Dealias.Options
import Dealias.Batch
import Dealias.Batch.Pool
import Dealias.Run
import Dealias.Json.Token
import Dealias.Json.Document
import Dealias.Json.Decode
import Dealias.Json.Value
import Dealias.Json.Relaxed
import Dealias.Options.Json
import Dealias.Project.Basic
import Dealias.Settings.Value
import Dealias.Settings.Layers
import Dealias.Project.Loading
import Dealias.Cli.Arguments
import Dealias.Cli.Fault
import Dealias.Cli.Style
import Dealias.Cli.Duration
import Dealias.Cli.Summary
import Dealias.Cli.LogFilter
import Dealias.Cli.Command
import Dealias.Main
import Dealias.Proofs.Outcome
import Dealias.Proofs.OrderedMap
import Dealias.Proofs.Path.Components
import Dealias.Proofs.Path.Normalize
import Dealias.Proofs.Path.Order
import Dealias.Proofs.Path.Relative
import Dealias.Proofs.Path.Shared
import Dealias.Proofs.Path.Way
import Dealias.Proofs.Program
import Dealias.Proofs.Batch.Pool
import Dealias.Proofs.Batch.Telling
import Dealias.Proofs.Batch.Termination
import Dealias.Proofs.Store.Memory
import Dealias.Proofs.Store.Links
import Dealias.Proofs.Store.ReadsBack
import Dealias.Proofs.Store.Hops
import Dealias.Proofs.Sharing
import Dealias.Proofs.Resolution
import Dealias.Proofs.Resolution.Transparent
import Dealias.Proofs.Discovery
import Dealias.Proofs.Discovery.Termination
import Dealias.Proofs.Discovery.Complete
import Dealias.Proofs.Discovery.Links
import Dealias.Proofs.Discovery.Descent
import Dealias.Proofs.Batch.File
import Dealias.Proofs.Batch.Schedule
import Dealias.Proofs.Run
import Dealias.Proofs.Refusal
import Dealias.Proofs.DryRun
import Dealias.Proofs.Source.Scan
import Dealias.Proofs.Source.Occurrences
import Dealias.Proofs.Source.Joined
import Dealias.Proofs.Source.Edit
import Dealias.Proofs.Source.Change
import Dealias.Proofs.Path.Quotes
import Dealias.Proofs.Path.Suffix
import Dealias.Proofs.Alias.Table
import Dealias.Proofs.Alias.Precedence
import Dealias.Proofs.Alias.Substitution
import Dealias.Proofs.Alias.Building
import Dealias.Proofs.SecondRun
import Dealias.Proofs.Rewiring
import Dealias.Proofs.Addresses
import Dealias.Proofs.Addresses.Relative
import Dealias.Proofs.Resolution.Probing
import Dealias.Proofs.Batch.Lookups
import Dealias.Proofs.CacheCounts
import Dealias.Proofs.Diagnostics
import Dealias.Proofs.Json.Lines
import Dealias.Proofs.Json.Readers
import Dealias.Proofs.Json.Grammar
import Dealias.Proofs.Json.Numbers
import Dealias.Proofs.Json.Scanning
import Dealias.Proofs.Json.Lexing
import Dealias.Proofs.Json.Trees
import Dealias.Proofs.Json.Building
import Dealias.Proofs.Json.Records
import Dealias.Proofs.Json.Awaiting
import Dealias.Proofs.Json.Characters
import Dealias.Proofs.Json.Commas
import Dealias.Proofs.Json.Comments
import Dealias.Proofs.Project.Relaxed
import Dealias.Proofs.Project.Members
import Dealias.Proofs.Number.Numeral
import Dealias.Proofs.Number.Rounding
import Dealias.Proofs.Json.Printing
import Dealias.Proofs.Options.Json
import Dealias.Proofs.Project.Places
import Dealias.Proofs.Settings.Layers
import Dealias.Proofs.Settings.AliasMaps
import Dealias.Proofs.Settings.Values
import Dealias.Proofs.Settings.Variables
import Dealias.Proofs.Path.Anchor
import Dealias.Proofs.Cli.Duration
