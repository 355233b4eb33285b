import ManifestShell.CommandLine.Arguments
import ManifestShell.CommandLine.Parser
import ManifestShell.CommandLine.Run
import ManifestShell.CommandLine.Startup
import ManifestShell.Completion.Context
import ManifestShell.Completion.Engine
import ManifestShell.Completion.Hint
import ManifestShell.Display
import ManifestShell.Error
import ManifestShell.Files
import ManifestShell.Glob
import ManifestShell.Json.Parser
import ManifestShell.Json.Printer
import ManifestShell.Main
import ManifestShell.Number
import ManifestShell.Proofs.Agreement
import ManifestShell.Proofs.BindingListings
import ManifestShell.Proofs.BoundVariables
import ManifestShell.Proofs.Candidates
import ManifestShell.Proofs.CastKeywords
import ManifestShell.Proofs.ChildrenAccessors
import ManifestShell.Proofs.CommandLines
import ManifestShell.Proofs.DeclarationLogs
import ManifestShell.Proofs.Declarations
import ManifestShell.Proofs.Displacement
import ManifestShell.Proofs.Escaping
import ManifestShell.Proofs.Expansion
import ManifestShell.Proofs.Hints
import ManifestShell.Proofs.ImportSpans
import ManifestShell.Proofs.JsonCharacters
import ManifestShell.Proofs.JsonNesting
import ManifestShell.Proofs.JsonScalars
import ManifestShell.Proofs.LineCuts
import ManifestShell.Proofs.ListedTrees
import ManifestShell.Proofs.LocalFailures
import ManifestShell.Proofs.Lookup
import ManifestShell.Proofs.PaintedOutput
import ManifestShell.Proofs.PathProposals
import ManifestShell.Proofs.PatternGrammar
import ManifestShell.Proofs.PrintedResults
import ManifestShell.Proofs.QueryReports
import ManifestShell.Proofs.Replacement
import ManifestShell.Proofs.RootPattern
import ManifestShell.Proofs.RootSpelling
import ManifestShell.Proofs.Routes
import ManifestShell.Proofs.Segments
import ManifestShell.Proofs.SessionRuns
import ManifestShell.Proofs.SettingFields
import ManifestShell.Proofs.SettingsPrecedence
import ManifestShell.Proofs.SettingsRoundTrip
import ManifestShell.Proofs.Spelling
import ManifestShell.Proofs.StartedSessions
import ManifestShell.Proofs.StraightRoots
import ManifestShell.Proofs.Tables
import ManifestShell.Proofs.TagCompletion
import ManifestShell.Proofs.TomlDocuments
import ManifestShell.Proofs.TomlTexts
import ManifestShell.Proofs.TypedCommands
import ManifestShell.Proofs.TypedPaths
import ManifestShell.Proofs.Visibility
import ManifestShell.Proofs.WiderPatterns
import ManifestShell.Proofs.WordStarts
import ManifestShell.Query
import ManifestShell.Settings.Basic
import ManifestShell.Settings.Storage
import ManifestShell.Shell.Command
import ManifestShell.Shell.History
import ManifestShell.Shell.Session
import ManifestShell.Table
import ManifestShell.Text.Basic
import ManifestShell.Text.Word
import ManifestShell.Toml.Basic
import ManifestShell.Toml.Parser
import ManifestShell.Toml.Quoted
import ManifestShell.Toml.Scalar
