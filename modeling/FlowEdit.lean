import FlowEdit.Session.Buffer
import FlowEdit.Session.Server
import FlowEdit.Session.Workspace
import FlowEdit.Proofs.LineStart
import FlowEdit.Proofs.Reflow
import FlowEdit.Proofs.FixedPoint
import FlowEdit.Proofs.Formatting
import FlowEdit.Proofs.Words
import FlowEdit.Proofs.Lexeme
import FlowEdit.Proofs.StringLines
import FlowEdit.Proofs.ColumnZero
import FlowEdit.Proofs.Forest
import FlowEdit.Proofs.ReadBack
import FlowEdit.Proofs.WordLexer
import FlowEdit.Proofs.Positions
import FlowEdit.Proofs.Tokens
import FlowEdit.Proofs.ForestAppend
import FlowEdit.Proofs.OpenParens
import FlowEdit.Proofs.Tiling
import FlowEdit.Proofs.AboveLine
import FlowEdit.Proofs.Regions
import FlowEdit.Proofs.AliasChains
import FlowEdit.Proofs.ExactAnchor
import FlowEdit.Proofs.LineByLine
import FlowEdit.Proofs.NewLine
import FlowEdit.Proofs.AliasChecks
import FlowEdit.Proofs.PositionOffsets
import FlowEdit.Proofs.Relocation
import FlowEdit.Proofs.SameLayout
import FlowEdit.Proofs.Chunks
import FlowEdit.Proofs.Numerals
import FlowEdit.Proofs.Patterns
import FlowEdit.Proofs.Completion
import FlowEdit.Proofs.AlignTargets
import FlowEdit.Proofs.Highlighting
import FlowEdit.Proofs.FileUris
import FlowEdit.Proofs.IndexedScan
import FlowEdit.Proofs.IndexedForms
import FlowEdit.Proofs.IndexedQueries
import FlowEdit.Proofs.IndexedWalk
import FlowEdit.Proofs.PlannedColumns
import FlowEdit.Proofs.SafeQueries
import FlowEdit.Proofs.Sessions
import FlowEdit.Proofs.Editing
