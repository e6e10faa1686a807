import ServoScript.Assembly
import ServoScript.Block
import ServoScript.Checksum
import ServoScript.Command
import ServoScript.Control
import ServoScript.Diagnostic
import ServoScript.Dump
import ServoScript.Fault
import ServoScript.FileTree
import ServoScript.Image
import ServoScript.Instruction
import ServoScript.Item
import ServoScript.Keyword
import ServoScript.Layout
import ServoScript.Listing
import ServoScript.Main
import ServoScript.Manifest
import ServoScript.Number
import ServoScript.Opcode
import ServoScript.Options
import ServoScript.Position
import ServoScript.Profile
import ServoScript.Program
import ServoScript.Proofs.Basic
import ServoScript.Proofs.BlockLabels
import ServoScript.Proofs.Capacity
import ServoScript.Proofs.Checksums
import ServoScript.Proofs.Codec
import ServoScript.Proofs.Columns
import ServoScript.Proofs.CommandTables
import ServoScript.Proofs.Complaints
import ServoScript.Proofs.ControlFlow
import ServoScript.Proofs.Declarations
import ServoScript.Proofs.Decoding
import ServoScript.Proofs.Diagnostics
import ServoScript.Proofs.Disassembly
import ServoScript.Proofs.Drafts
import ServoScript.Proofs.Dumps
import ServoScript.Proofs.ErrorDetection
import ServoScript.Proofs.Frames
import ServoScript.Proofs.Labels
import ServoScript.Proofs.Language
import ServoScript.Proofs.Lexing
import ServoScript.Proofs.Listings
import ServoScript.Proofs.Literals
import ServoScript.Proofs.Moving
import ServoScript.Proofs.NameSpaces
import ServoScript.Proofs.Nesting
import ServoScript.Proofs.Numerals
import ServoScript.Proofs.Operations
import ServoScript.Proofs.Passes
import ServoScript.Proofs.Placement
import ServoScript.Proofs.Points
import ServoScript.Proofs.Profiles
import ServoScript.Proofs.Reading
import ServoScript.Proofs.Refusals
import ServoScript.Proofs.Renaming
import ServoScript.Proofs.Resolved
import ServoScript.Proofs.Scripts
import ServoScript.Proofs.SourceLines
import ServoScript.Proofs.Spacing
import ServoScript.Proofs.Subroutines
import ServoScript.Proofs.Targets
import ServoScript.Proofs.Verdicts
import ServoScript.Proofs.Widths
import ServoScript.Proofs.Words
import ServoScript.Reader
import ServoScript.Resolution
import ServoScript.Session
import ServoScript.Source
import ServoScript.Symbols
import ServoScript.Text.Digit
import ServoScript.Text.Field
import ServoScript.Text.Mark
import ServoScript.Text.Pieces
import ServoScript.Text.UpperCase
import ServoScript.Text.WhiteSpace
import ServoScript.Token
import ServoScript.Yaml.Implicit
import ServoScript.Yaml.Scalar
