import StyleValues.Bindings
import StyleValues.CommandLine.Arguments
import StyleValues.CommandLine.Disk
import StyleValues.CommandLine.Failure
import StyleValues.CommandLine.Options
import StyleValues.CommandLine.Run
import StyleValues.Config
import StyleValues.Definition.Basic
import StyleValues.Definition.Grammar
import StyleValues.Definition.Lexeme
import StyleValues.Definition.Token
import StyleValues.Interchange.Entries
import StyleValues.Interchange.Exports
import StyleValues.Interchange.Imports
import StyleValues.Interchange.Json
import StyleValues.Interchange.Message
import StyleValues.Interchange.Placeholder
import StyleValues.Interchange.Selector
import StyleValues.Main
import StyleValues.Proofs.Sheet.Forest
import StyleValues.Proofs.Sheet.RoundTrip
import StyleValues.Resolution.Replacement
import StyleValues.Resolution.Rewrite
import StyleValues.Resolution.Run
import StyleValues.Resolution.Statement
import StyleValues.Resolution.Trace
import StyleValues.Sheet.Colon
import StyleValues.Sheet.Fault
import StyleValues.Sheet.Nesting
import StyleValues.Sheet.Node
import StyleValues.Sheet.Path
import StyleValues.Sheet.Printer
import StyleValues.Sheet.Segment
import StyleValues.Sheet.Statement
import StyleValues.Sheet.Walk
import StyleValues.Substitution.Identifier
import StyleValues.Substitution.Token
import StyleValues.Text.Alphanumeric
import StyleValues.Text.Basic
import StyleValues.Text.Blank
import StyleValues.Text.Quoted
import StyleValues.Text.Ranges
import StyleValues.Warning
import StyleValues.Proofs.Sheet.Removal
import StyleValues.Proofs.Interchange.Grouping
import StyleValues.Proofs.Resolution.Statements
import StyleValues.Proofs.Interchange.Extension
import StyleValues.Proofs.Resolution.Rewriting
import StyleValues.Proofs.Resolution.Preservation
import StyleValues.Proofs.Resolution.NothingDefined
import StyleValues.Proofs.Interchange.Placeholders
import StyleValues.Proofs.Text.Trimming
import StyleValues.Proofs.Text.Cutting
import StyleValues.Proofs.Text.Bytes
import StyleValues.Proofs.Text.Pieces
import StyleValues.Proofs.Interchange.Merging
import StyleValues.Proofs.Interchange.Selectors
import StyleValues.Proofs.Resolution.Blocks
import StyleValues.Proofs.Resolution.ImportBlocks
import StyleValues.Proofs.Resolution.ExportBlock
import StyleValues.Proofs.Sheet.Locality
import StyleValues.Proofs.Sheet.Legibility
import StyleValues.Proofs.Interchange.PlainEntries
import StyleValues.Proofs.Resolution.Arrangement
import StyleValues.Proofs.Sheet.Passing
import StyleValues.Proofs.Sheet.Rewording
import StyleValues.Proofs.Resolution.LegibleTexts
import StyleValues.Proofs.Resolution.LegibleBlocks
import StyleValues.Proofs.Resolution.Fitting
import StyleValues.Proofs.Resolution.ExportPlace
import StyleValues.Proofs.Resolution.LoneStatements
import StyleValues.Proofs.Resolution.Rereading
import StyleValues.Proofs.Substitution.Tokens
import StyleValues.Proofs.Resolution.Definitions
import StyleValues.Proofs.Resolution.Texts
import StyleValues.Proofs.Substitution.Identifiers
import StyleValues.Proofs.Substitution.Copying
import StyleValues.Proofs.Substitution.Occurrences
import StyleValues.Proofs.Resolution.Expansion
import StyleValues.Proofs.Resolution.Redirection
import StyleValues.Proofs.Resolution.Frame
import StyleValues.Proofs.Resolution.MessageOrder
import StyleValues.Proofs.Sheet.Appending
import StyleValues.Proofs.Sheet.ClosedTexts
import StyleValues.Proofs.Sheet.ColonUnits
import StyleValues.Proofs.Sheet.Composition
import StyleValues.Proofs.Sheet.Shapes
import StyleValues.Proofs.Sheet.Units
import StyleValues.Proofs.Sheet.Faults
import StyleValues.Proofs.Sheet.Scanning
import StyleValues.Proofs.Sheet.Splitting
import StyleValues.Proofs.Sheet.Cursor
import StyleValues.Proofs.Sheet.Progress
import StyleValues.Proofs.Sheet.PathOrder
import StyleValues.Proofs.Definition.Lexing
import StyleValues.Proofs.Definition.Tokens
import StyleValues.Proofs.Definition.Rendering
import StyleValues.Proofs.Definition.ImportTokens
import StyleValues.Proofs.Definition.FromClauses
import StyleValues.Proofs.Definition.ImportGrammar
import StyleValues.Proofs.Sheet.Unended
import StyleValues.Proofs.Interchange.ExtendedBlocks
import StyleValues.Proofs.Interchange.ImportRules
import StyleValues.Proofs.Interchange.MergedBlocks
import StyleValues.Proofs.Definition.Values
import StyleValues.Proofs.Resolution.UsableNames
import StyleValues.Proofs.Resolution.MergedStatements
import StyleValues.Proofs.Sheet.PathShift
import StyleValues.Proofs.Sheet.StatementScan
import StyleValues.Proofs.Interchange.Allocation
import StyleValues.Proofs.CommandLine.Files
import StyleValues.Proofs.CommandLine.Invocations
import StyleValues.Proofs.Substitution.Wordlike
import StyleValues.Proofs.Resolution.PlainRuns
