import ScriptImage.ByteOrder
import ScriptImage.ByteString
import ScriptImage.Cell
import ScriptImage.Cell.Build
import ScriptImage.Cell.Literal
import ScriptImage.Code
import ScriptImage.Code.Routine
import ScriptImage.Encoding
import ScriptImage.Error
import ScriptImage.Float.Binary
import ScriptImage.Float.Decimal
import ScriptImage.Float.Shortest
import ScriptImage.Header
import ScriptImage.Header.StringPool
import ScriptImage.Header.Tables
import ScriptImage.Image
import ScriptImage.Instr
import ScriptImage.Instr.Opcode
import ScriptImage.Instr.Operands
import ScriptImage.Instr.Variable
import ScriptImage.Json
import ScriptImage.Json.Decode
import ScriptImage.Json.Encode
import ScriptImage.Pass
import ScriptImage.Pass.Plan
import ScriptImage.Pass.Branches
import ScriptImage.Pass.Inlining
import ScriptImage.Pass.Jumps
import ScriptImage.Pass.Targets
import ScriptImage.Pass.Visit
import ScriptImage.Reader
import ScriptImage.Text.Blank
import ScriptImage.Text.Hex
import ScriptImage.Text.Utf8
import ScriptImage.Version
import ScriptImage.Window
import ScriptImage.Workspace
import ScriptImage.Proofs.RoundTrip
import ScriptImage.Proofs.Lowering
import ScriptImage.Proofs.Meaning
import ScriptImage.Proofs.Visiting
import ScriptImage.Proofs.InliningPasses
import ScriptImage.Proofs.Editing
import ScriptImage.Proofs.TargetPositions
import ScriptImage.Proofs.JumpPasses
import ScriptImage.Proofs.BranchPasses
import ScriptImage.Proofs.Clearing
import ScriptImage.Proofs.PassRuns
import ScriptImage.Proofs.PassOrder
import ScriptImage.Proofs.Footprints
import ScriptImage.Proofs.Canonical
import ScriptImage.Proofs.Handles
import ScriptImage.Proofs.Relocation
import ScriptImage.Proofs.Drafts
import ScriptImage.Proofs.ShortInput
import ScriptImage.Proofs.StreamGrammar
import ScriptImage.Proofs.StreamCuts
import ScriptImage.Proofs.Truncation
import ScriptImage.Proofs.Plans
import ScriptImage.Proofs.Failures
import ScriptImage.Proofs.Idempotence
import ScriptImage.Proofs.Windows
import ScriptImage.Machine.Access
import ScriptImage.Machine.PlainPool
import ScriptImage.Machine.Reading
import ScriptImage.Machine.Writing
import ScriptImage.Machine.Serving
import ScriptImage.Proofs.SharedBytes
import ScriptImage.Proofs.WordAccess
import ScriptImage.Proofs.WordReading
import ScriptImage.Proofs.WordWriting
import ScriptImage.Proofs.WordRequests
import ScriptImage.Proofs.WindowSafety
import ScriptImage.Proofs.EncodedSize
import ScriptImage.Proofs.Placement
import ScriptImage.Proofs.Landing
import ScriptImage.Proofs.FreshIds
import ScriptImage.Proofs.JumpLowering
import ScriptImage.Proofs.BranchLowering
import ScriptImage.Proofs.JumpRaising
import ScriptImage.Proofs.BranchRaising
import ScriptImage.Proofs.PoolGrowth
import ScriptImage.Proofs.RunningSums
import ScriptImage.Proofs.HeaderForms
import ScriptImage.Proofs.HandOff
import ScriptImage.Proofs.StringLiterals
import ScriptImage.Proofs.IntegerLiterals
import ScriptImage.Proofs.Arguments
import ScriptImage.Proofs.ReachablePools
import ScriptImage.Proofs.Positions
import ScriptImage.Proofs.Snapping
import ScriptImage.Proofs.Insertion
import ScriptImage.Proofs.CellCodec
