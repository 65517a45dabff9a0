import Petscii.Text.Utf8
import Petscii.Text.Utf16
import Petscii.Text.Printable
import Petscii.Text.Quoted
import Petscii.Text.Numeral
import Petscii.Position
import Petscii.Screen
import Petscii.Frame.Basic
import Petscii.Frame.Rows
import Petscii.Reel
import Petscii.Span
import Petscii.Run
import Petscii.Stream
import Petscii.Source.Encoding
import Petscii.Source.Unicode
import Petscii.Source.Token
import Petscii.Source.Scan
import Petscii.Source.Rules
import Petscii.Source.Parse
import Petscii.Asm.Expr
import Petscii.Asm.Instruction
import Petscii.Asm.Line
import Petscii.Asm.Read
import Petscii.Asm.Assemble
import Petscii.Machine
import Petscii.Patch
import Petscii.Program.Block
import Petscii.Program.Builder
import Petscii.Source.Print
import Petscii.FileTree
import Petscii.Log
import Petscii.Session
import Petscii.Image
import Petscii.Command.Options
import Petscii.Command.Run
import Petscii.Main
import Petscii.Proofs.Machine.Piece
import Petscii.Proofs.Machine.Display
import Petscii.Proofs.Machine.Copy
import Petscii.Proofs.Asm.Layout
import Petscii.Proofs.Asm.Link
import Petscii.Proofs.Program.Runs
import Petscii.Proofs.Program.Emit
import Petscii.Proofs.Text.Name
import Petscii.Proofs.Text.Address
import Petscii.Proofs.Asm.ReadBack
import Petscii.Proofs.Program.Names
import Petscii.Proofs.Program.Stage
import Petscii.Proofs.Program.Transition
import Petscii.Proofs.Program.Initial
import Petscii.Proofs.Program.Build
import Petscii.Proofs.Program.Module
import Petscii.Proofs.Program.Play
import Petscii.Proofs.Program.Ledger
import Petscii.Proofs.Patch.Rows
import Petscii.Proofs.Patch.Procedure
import Petscii.Proofs.Patch.Transitions
import Petscii.Proofs.Patch.Walk
import Petscii.Proofs.Patch.Workers
import Petscii.Proofs.Patch.Script
import Petscii.Proofs.Source.Grammar
import Petscii.Proofs.Source.Scan
import Petscii.Proofs.Source.Comment
import Petscii.Proofs.Source.Production
import Petscii.Proofs.Source.Memo
import Petscii.Proofs.Source.Accept
import Petscii.Proofs.Source.Printed
import Petscii.Proofs.Source.RoundTrip
import Petscii.Proofs.Accepted
import Petscii.Proofs.Patch.Tour
import Petscii.Proofs.Source.Stages
import Petscii.Proofs.Source.Farthest
import Petscii.Proofs.Source.Unexpected
import Petscii.Proofs.FileTree
import Petscii.Proofs.Host
import Petscii.Proofs.Session
import Petscii.Proofs.Image.Files
import Petscii.Proofs.Image.Replay
import Petscii.Proofs.Image.Listing
import Petscii.Proofs.Image.Symbols
import Petscii.Proofs.Command.Plan
import Petscii.Proofs.Command.Failed
import Petscii.Proofs.Asm.Capture
import Petscii.Proofs.Program.Bound
import Petscii.Proofs.Screen
import Petscii.Proofs.Source.Decoders
import Petscii.Proofs.Source.Encoding
import Petscii.Proofs.Machine.Touch
import Petscii.Proofs.Program.Footprint
import Petscii.Proofs.Program.Fragment
import Petscii.Proofs.Program.LowByte
import Petscii.Proofs.Program.Renew
import Petscii.Proofs.Program.Change
import Petscii.Proofs.Program.Operands
import Petscii.Proofs.Span
import Petscii.Proofs.Program.Refusal
import Petscii.Proofs.Source.Lockstep
import Petscii.Proofs.Source.Trace
import Petscii.Proofs.Source.Noted
import Petscii.Proofs.Source.FirstProblem
import Petscii.Proofs.Reel
import Petscii.Proofs.Columns
import Petscii.Proofs.Run
import Petscii.Proofs.Program.Tables
