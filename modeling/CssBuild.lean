import CssBuild.Json.Writer
import CssBuild.Document
import CssBuild.Toml.Lexical
import CssBuild.Toml.Table
import CssBuild.Toml.Reader
import CssBuild.Toml.Writer
import CssBuild.Glob.Basic
import CssBuild.Glob.Matching
import CssBuild.Glob.Reader
import CssBuild.Config.Fonts
import CssBuild.Config.Modes
import CssBuild.Config.Pattern
import CssBuild.Config.Plugin
import CssBuild.Config.Basic
import CssBuild.Config.Format
import CssBuild.Json.Typed
import CssBuild.Config.Typed
import CssBuild.Docs.Property
import CssBuild.Docs.Reference
import CssBuild.Cli.Style
import CssBuild.Files.Tree
import CssBuild.Content.Resolution
import CssBuild.Cli.Arguments
import CssBuild.Config.Stored
import CssBuild.Cli.Error
import CssBuild.Cli.Run
import CssBuild.Main
import CssBuild.Proofs.Json.Distinct
import CssBuild.Proofs.Config.Description
import CssBuild.Proofs.Json.Reading
import CssBuild.Proofs.Decimal.Scaling
import CssBuild.Proofs.Json.Numerals
import CssBuild.Proofs.Decimal.Printing
import CssBuild.Proofs.Json.Writing
import CssBuild.Proofs.Script.Numbers
import CssBuild.Proofs.Script.Strings
import CssBuild.Proofs.Script.Literals
import CssBuild.Proofs.Script.Exports
import CssBuild.Proofs.Script.Decoding
import CssBuild.Proofs.Spans
import CssBuild.Proofs.Toml.Strings
import CssBuild.Proofs.Toml.Keys
import CssBuild.Proofs.Toml.Numbers
import CssBuild.Proofs.Toml.Tables
import CssBuild.Proofs.Toml.Inline
import CssBuild.Proofs.Config.Reloading
import CssBuild.Proofs.Config.Leniency
import CssBuild.Proofs.Glob.Tails
import CssBuild.Proofs.Content.Exclusion
import CssBuild.Proofs.Config.Normalization
import CssBuild.Proofs.Config.Rereading
import CssBuild.Proofs.Files.Parents
import CssBuild.Proofs.Files.Writing
import CssBuild.Proofs.Config.Saving
import CssBuild.Proofs.Cli.Conversion
import CssBuild.Proofs.Content.Containment
import CssBuild.Proofs.Content.Soundness
import CssBuild.Proofs.Config.Duplicates
import CssBuild.Proofs.Config.Streaming
import CssBuild.Proofs.Config.Locating
import CssBuild.Proofs.Content.Distinctness
import CssBuild.Proofs.Config.Fallbacks
import CssBuild.Proofs.Script.Exactness
import CssBuild.Proofs.Script.Requires
import CssBuild.Proofs.Config.PluginNames
import CssBuild.Proofs.Config.Expressiveness
import CssBuild.Proofs.Config.FontTables
import CssBuild.Proofs.Cli.Values
import CssBuild.Proofs.Docs.Tables
import CssBuild.Proofs.Script.NumericKeys
import CssBuild.Proofs.Text.Offsets
import CssBuild.Proofs.Toml.Faults
