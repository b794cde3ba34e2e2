import DocGap.Cli.Arguments
import DocGap.Cli.Paint
import DocGap.Cli.Run
import DocGap.Collection
import DocGap.Comment
import DocGap.Disk
import DocGap.Disk.Faults
import DocGap.Disk.Memory
import DocGap.Element
import DocGap.Extraction
import DocGap.Gap
import DocGap.Grammar
import DocGap.Json.Number
import DocGap.Json.Reader
import DocGap.Language
import DocGap.LineDiff
import DocGap.LineIndex
import DocGap.Main
import DocGap.Mutation
import DocGap.NameList
import DocGap.Path
import DocGap.Pattern
import DocGap.Payload
import DocGap.Payload.Printer
import DocGap.Payload.Reader
import DocGap.Pipeline
import DocGap.Plan
import DocGap.Preview
import DocGap.Request
import DocGap.Rule
import DocGap.Settings
import DocGap.Settings.Discovery
import DocGap.Signature
import DocGap.SourceFile
import DocGap.Spot
import DocGap.Synthesis
import DocGap.Text.Blank
import DocGap.Text.Decoding
import DocGap.Text.Offset
import DocGap.Text.Pieces
import DocGap.Ticker
import DocGap.Toml.Literal
import DocGap.Toml.Node
import DocGap.Toml.Quoted
import DocGap.Toml.Reader
import DocGap.Tree
import DocGap.Proofs.Attempt
import DocGap.Proofs.CrashSafety
import DocGap.Proofs.Announce
import DocGap.Proofs.CodeKept
import DocGap.Proofs.SecondRun
import DocGap.Proofs.Merge
import DocGap.Proofs.CommentLines
import DocGap.Proofs.Recognised
import DocGap.Proofs.Refusals
import DocGap.Proofs.Undisturbed
import DocGap.Proofs.NamedBlocks
import DocGap.Proofs.Replanning
import DocGap.Proofs.Addressed
import DocGap.Proofs.Following
import DocGap.Proofs.TreeAttempt
import DocGap.Proofs.Isolation
import DocGap.Proofs.NestedComments
import DocGap.Proofs.KeptBackup
import DocGap.Proofs.AnswerShape
import DocGap.Proofs.Decisions
import DocGap.Proofs.Verdicts
import DocGap.Proofs.LineEnds
import DocGap.Proofs.OwnSignature
import DocGap.Proofs.WholeNames
import DocGap.Proofs.WithinText
import DocGap.Proofs.FencedPayloads
import DocGap.Proofs.Collected
import DocGap.Proofs.WholeScan
import DocGap.Proofs.MaskedLists
import DocGap.Proofs.ByteLines
