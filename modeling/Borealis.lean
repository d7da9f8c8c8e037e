import Borealis.Base64
import Borealis.Checksum
import Borealis.Command
import Borealis.Command.Converse
import Borealis.Command.Dependencies
import Borealis.Command.Entry
import Borealis.Command.Source
import Borealis.Console
import Borealis.Diagnostic
import Borealis.Double
import Borealis.Double.Shortest
import Borealis.Eval
import Borealis.FileTree
import Borealis.Fixture
import Borealis.Flags
import Borealis.Host
import Borealis.Install
import Borealis.Install.Revision
import Borealis.Interpreter
import Borealis.Json
import Borealis.Json.Fault
import Borealis.Json.Reader
import Borealis.Json.Writer
import Borealis.Lockfile
import Borealis.Lockfile.Storage
import Borealis.Loop
import Borealis.Loop.History
import Borealis.Loop.Lines
import Borealis.Manifest
import Borealis.Manifest.Reader
import Borealis.Path
import Borealis.Project
import Borealis.Proofs.Ahead
import Borealis.Proofs.Complaints
import Borealis.Proofs.Derivation
import Borealis.Session
import Borealis.Sha256
import Borealis.Stamp
import Borealis.Store
import Borealis.Table
import Borealis.Text
import Borealis.Text.Blank
import Borealis.Text.Integer
import Borealis.Text.Printable
import Borealis.Text.Quoted
import Borealis.Text.Rune
import Borealis.Token
import Borealis.Token.Lexer
import Borealis.Token.Source
import Borealis.Tree
import Borealis.Tree.Compact
import Borealis.Tree.Cursor
import Borealis.Tree.Json
import Borealis.Tree.Layout
import Borealis.Tree.OfTokens
import Borealis.Value
import Borealis.Yaml.Decoding
import Borealis.Yaml.Encoding
import Borealis.Yaml.Input
import Borealis.Yaml.Meaning
import Borealis.Yaml.Node
import Borealis.Yaml.Node.OfTokens
import Borealis.Yaml.Timestamp
import Borealis.Yaml.Token
import Borealis.Yaml.Token.Lexer
import Borealis.Yaml.Token.Property
import Borealis.Yaml.Token.Scalar
import Borealis.Yaml.Writer
import Borealis.Main
import Borealis.Proofs.Soundness
import Borealis.Proofs.Completeness
import Borealis.Proofs.Grouping
import Borealis.Proofs.WrittenGrammar
import Borealis.Proofs.Numerals
import Borealis.Proofs.Scanning
import Borealis.Proofs.RoundTrip
import Borealis.Proofs.Sessions
import Borealis.Proofs.Traces
import Borealis.Proofs.Unwinding
import Borealis.Proofs.CallDepth
import Borealis.Proofs.Frames
import Borealis.Proofs.Shifts
import Borealis.Proofs.Repeats
import Borealis.Proofs.Termination
import Borealis.Proofs.LineBreaks
import Borealis.Proofs.Beginnings
import Borealis.Proofs.Completions
import Borealis.Proofs.OpenEnds
import Borealis.Proofs.CompactForm
import Borealis.Proofs.Pieces
import Borealis.Proofs.SameTokens
import Borealis.Proofs.StoredTrees
import Borealis.Proofs.Chunks
import Borealis.Proofs.Trimming
import Borealis.Proofs.Tables
import Borealis.Proofs.Paths
import Borealis.Proofs.FileTrees
import Borealis.Proofs.Checkouts
import Borealis.Proofs.Locks
import Borealis.Proofs.Installing
import Borealis.Proofs.Confinement
import Borealis.Proofs.DependencyRuns
import Borealis.Proofs.Installed
import Borealis.Proofs.LockHistories
import Borealis.Proofs.Preludes
import Borealis.Proofs.Invariants
import Borealis.Proofs.DiagnosticOrder
import Borealis.Proofs.NestingLimits
import Borealis.Proofs.Fragments
import Borealis.Proofs.FewestParentheses
import Borealis.Proofs.Walks
import Borealis.Proofs.Wrapping
import Borealis.Proofs.RepeatedInstalls
import Borealis.Proofs.FailedRuns
import Borealis.Proofs.StoredLocks
import Borealis.Proofs.DeclaredDependencies
import Borealis.Proofs.RecordedPackages
import Borealis.Proofs.TreeAgreement
import Borealis.Proofs.Spacing
import Borealis.Proofs.ScopeChains
import Borealis.Proofs.NearestManifest
