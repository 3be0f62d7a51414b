import Uplift.Codemod.Descriptor
import Uplift.Codemod.Discovery
import Uplift.Codemod.External
import Uplift.Codemod.Imports
import Uplift.Codemod.Outcome
import Uplift.Codemod.Runner
import Uplift.CommandLine.Arguments
import Uplift.CommandLine.Execution
import Uplift.CommandLine.Usage
import Uplift.Config
import Uplift.Config.Schema
import Uplift.Decimal.Shortest
import Uplift.Failure
import Uplift.FileTree.Access
import Uplift.FileTree.Basic
import Uplift.FileTree.Disk
import Uplift.FileTree.Glob
import Uplift.FileTree.Staged
import Uplift.Instant
import Uplift.Json.Printer
import Uplift.Json.Reader
import Uplift.Json.Shape
import Uplift.Json.Value
import Uplift.Main
import Uplift.Manifest
import Uplift.Migration.Guide
import Uplift.Migration.Header
import Uplift.Migration.Library
import Uplift.Patch.EditScript
import Uplift.Patch.Unified
import Uplift.Path.Basic
import Uplift.Path.Display
import Uplift.Path.Lexical
import Uplift.Plan
import Uplift.Process.Basic
import Uplift.Range
import Uplift.Registry.Address
import Uplift.Registry.Lookup
import Uplift.Report
import Uplift.Session
import Uplift.Shell.Run
import Uplift.Shell.Script
import Uplift.Shell.Session
import Uplift.Shell.Token
import Uplift.Shell.Utility
import Uplift.Shell.Word
import Uplift.Source.Grammar
import Uplift.Source.Grammar.Basic
import Uplift.Source.Grammar.Expressions
import Uplift.Source.Grammar.Statements
import Uplift.Source.Grammar.Types
import Uplift.Source.Lexeme
import Uplift.Source.Relocation
import Uplift.Source.Specifier
import Uplift.Source.Tree
import Uplift.Table
import Uplift.Text.Blank
import Uplift.Text.DecimalDigit
import Uplift.Text.Lines
import Uplift.Text.Pattern
import Uplift.Text.Search
import Uplift.Text.Utf8
import Uplift.Toml.Reader
import Uplift.Toml.Value
import Uplift.Url.Basic
import Uplift.Url.Host
import Uplift.Url.Percent
import Uplift.Url.Punycode
import Uplift.Url.Reader
import Uplift.Version
import Uplift.Workspace.Convert
import Uplift.Workspace.Install
import Uplift.Workspace.Scan
import Uplift.Workspace.Upgrade
import Uplift.Proofs.Patch.Hunks
import Uplift.Proofs.Patch.Applier
import Uplift.Proofs.Patch.Rendering
import Uplift.Proofs.Patch.RoundTrip
import Uplift.Proofs.FileTree.Following
import Uplift.Proofs.FileTree.Staging
import Uplift.Proofs.Workspace.Upgrade
import Uplift.Proofs.Plan.Approval
import Uplift.Proofs.Workspace.Ranges
import Uplift.Proofs.Session.Changes
import Uplift.Proofs.Source.Specifiers
import Uplift.Proofs.Codemod.Dependencies
import Uplift.Proofs.Codemod.Imports
import Uplift.Proofs.Path.Display
import Uplift.Proofs.FileTree.Moving
import Uplift.Proofs.FileTree.Names
import Uplift.Proofs.FileTree.Faults
import Uplift.Proofs.Workspace.Layout
import Uplift.Proofs.Workspace.Relocation
import Uplift.Proofs.Workspace.Conversion
import Uplift.Proofs.Workspace.Recovery
import Uplift.Proofs.FileTree.Globbing
import Uplift.Proofs.Path.Order
import Uplift.Proofs.Workspace.Members
import Uplift.Proofs.Json.Reading
import Uplift.Proofs.FileTree.LiteralPatterns
import Uplift.Proofs.Workspace.MemberPattern
import Uplift.Proofs.Workspace.Installed
import Uplift.Proofs.Workspace.Rescan
import Uplift.Proofs.Migration.Library
import Uplift.Proofs.Version.Spelling
import Uplift.Proofs.Report
import Uplift.Proofs.Session.ReadOnly
import Uplift.Proofs.Decimal.Shortest
import Uplift.Proofs.Decimal.Arithmetic
import Uplift.Proofs.Json.Doubles
import Uplift.Proofs.Json.Numbers
import Uplift.Proofs.Json.Rereading
import Uplift.Proofs.Range
import Uplift.Proofs.Workspace.Bumping
import Uplift.Proofs.Workspace.Repeating
import Uplift.Proofs.FileTree.Sweeping
import Uplift.Proofs.FileTree.SweptPatterns
import Uplift.Proofs.Workspace.Tracking
import Uplift.Proofs.Manifest.RoundTrip
import Uplift.Proofs.Migration.BreakingFlag
import Uplift.Proofs.Codemod.Discovery
import Uplift.Proofs.Text.Cutting
import Uplift.Proofs.Text.Trimming
import Uplift.Proofs.Migration.Writing
import Uplift.Proofs.Migration.RoundTrip
import Uplift.Proofs.Path.Containment
import Uplift.Proofs.Patch.Minimality
import Uplift.Proofs.FileTree.Outcomes
import Uplift.Proofs.Codemod.Running
import Uplift.Proofs.Session.Applying
import Uplift.Proofs.Workspace.Bookkeeping
import Uplift.Proofs.Workspace.Restriction
import Uplift.Proofs.Plan.Upgrading
import Uplift.Proofs.Session.Planning
import Uplift.Proofs.Source.Relocating
import Uplift.Proofs.Json.Fields
import Uplift.Proofs.Codemod.Sections
import Uplift.Proofs.Codemod.Relocating
import Uplift.Proofs.FileTree.Walking
import Uplift.Proofs.Path.Below
import Uplift.Proofs.Codemod.Packages
import Uplift.Proofs.Codemod.Contributions
import Uplift.Proofs.Codemod.Coverage
import Uplift.Proofs.Codemod.Writing
import Uplift.Proofs.Workspace.ChangeLog
import Uplift.Proofs.Range.Grammar
import Uplift.Proofs.Codemod.Outcome
import Uplift.Proofs.Url.Percent
import Uplift.Proofs.Url.Segments
import Uplift.Proofs.Url.Directory
import Uplift.Proofs.Url.Relative
import Uplift.Proofs.Registry.Address
import Uplift.Proofs.Patch.RemovalsFirst
import Uplift.Proofs.Patch.Grouping
import Uplift.Proofs.Patch.Numbering
import Uplift.Proofs.Path.NormalForm
import Uplift.Proofs.Source.Cursor
import Uplift.Proofs.Source.OutermostStrings
