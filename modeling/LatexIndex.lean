import LatexIndex.Text.Blank
import LatexIndex.Text.Split
import LatexIndex.Text.Lines
import LatexIndex.Text.Width
import LatexIndex.Text.Quoted
import LatexIndex.Markup.Command
import LatexIndex.Markup.Comment
import LatexIndex.Markup.Directive
import LatexIndex.Markup.Finding
import LatexIndex.Markup.Scan
import LatexIndex.Listing
import LatexIndex.Path.Basic
import LatexIndex.Path.Normal
import LatexIndex.Path.Order
import LatexIndex.Path.Relative
import LatexIndex.Files.Disk
import LatexIndex.Files.Sources
import LatexIndex.Problem
import LatexIndex.Bib.Block
import LatexIndex.Bib.Field
import LatexIndex.Bib.Entry
import LatexIndex.Bib.Index
import LatexIndex.Markup.Environment
import LatexIndex.Cursor.Context
import LatexIndex.Cursor.Key
import LatexIndex.Settings
import LatexIndex.Project.Document
import LatexIndex.Project.Graph
import LatexIndex.Project.Explore
import LatexIndex.Project.Master
import LatexIndex.Project.Labels
import LatexIndex.Project.Bibliography
import LatexIndex.Project.Snapshot
import LatexIndex.Fonts
import LatexIndex.Completion.Candidate
import LatexIndex.Completion.Citation
import LatexIndex.Completion.Files
import LatexIndex.Completion.Complete
import LatexIndex.Definition
import LatexIndex.Session
import LatexIndex.Text.Utf8
import LatexIndex.Number.Binary
import LatexIndex.Data.Basic
import LatexIndex.Data.Json
import LatexIndex.Data.Toml
import LatexIndex.Settings.Merge
import LatexIndex.Settings.Load
import LatexIndex.Project.Report
import LatexIndex.CommandLine.Arguments
import LatexIndex.CommandLine.Run
import LatexIndex.Scheduler
import LatexIndex.Server.Uri.Domain
import LatexIndex.Server.Uri.Host
import LatexIndex.Server.Uri
import LatexIndex.Server.Shape
import LatexIndex.Server.Protocol.Basic
import LatexIndex.Server.Protocol.Editor
import LatexIndex.Server.Protocol.Parameters
import LatexIndex.Server.Notice
import LatexIndex.Server.State
import LatexIndex.Server.Message
import LatexIndex.Server.Service
import LatexIndex.CommandLine.Reach
import LatexIndex.Main
import LatexIndex.Proofs.Exploration
import LatexIndex.Proofs.Reachability
import LatexIndex.Proofs.RootedGraph
import LatexIndex.Proofs.Lookup
import LatexIndex.Proofs.Discovery
import LatexIndex.Proofs.Rebuilding
import LatexIndex.Proofs.Scheduling
import LatexIndex.Proofs.PlainPaths
import LatexIndex.Proofs.Serving
import LatexIndex.Proofs.Ownership
import LatexIndex.Proofs.Diagnostics
import LatexIndex.Proofs.Saving
import LatexIndex.Proofs.SavedIndex
import LatexIndex.Proofs.PathOrder
import LatexIndex.Proofs.SavedListing
import LatexIndex.Proofs.SavedMaster
import LatexIndex.Proofs.Concatenation
import LatexIndex.Proofs.UnreadText
import LatexIndex.Proofs.Enclosing
import LatexIndex.Proofs.Ancestors
import LatexIndex.Proofs.Shadowing
import LatexIndex.Proofs.Spelling
import LatexIndex.Proofs.Climbing
import LatexIndex.Proofs.Querying
import LatexIndex.Proofs.FileNames
import LatexIndex.Proofs.ByteOrder
import LatexIndex.Proofs.Offering
import LatexIndex.Proofs.Citations
import LatexIndex.Proofs.Databases
import LatexIndex.Proofs.Removing
import LatexIndex.Proofs.Dependence
import LatexIndex.Proofs.SavePolicy
import LatexIndex.Proofs.Accounting
import LatexIndex.Proofs.BreadthFirst
import LatexIndex.Proofs.LineNumbers
import LatexIndex.Proofs.Parentheses
import LatexIndex.Proofs.Recovery
import LatexIndex.Proofs.MarkerPlaces
import LatexIndex.Proofs.ClosingLines
import LatexIndex.Proofs.LabelDefinitions
import LatexIndex.Proofs.Bibliographies
import LatexIndex.Proofs.DroppedKeys
import LatexIndex.Proofs.Pointing
import LatexIndex.Proofs.PointedKeys
import LatexIndex.Proofs.TypedWord
import LatexIndex.Proofs.IncludedFiles
import LatexIndex.Proofs.RelativePaths
import LatexIndex.Proofs.OfferedPaths
import LatexIndex.Proofs.Destinations
import LatexIndex.Proofs.ByteText
import LatexIndex.Proofs.FileUris
import LatexIndex.Proofs.ClientView
import LatexIndex.Proofs.BraceDepth
import LatexIndex.Proofs.DirectiveGrammar
import LatexIndex.Proofs.ByteBlocks
import LatexIndex.Proofs.ReadingTurns
import LatexIndex.Proofs.Escapes
import LatexIndex.Proofs.Restriction
import LatexIndex.Catalog
import LatexIndex.Proofs.Catalog
import LatexIndex.Proofs.LoadedDocuments
import LatexIndex.Proofs.OpenEnvironments
import LatexIndex.Proofs.Ledger
